import PhpFlow.Proofs.Returning

/-!
# Where the types of return statements come from

What a return statement adds is the type of its expression in the state in which the analysis has come to it.
However a run ends, what it has added is due to return statements of the code, in their order; some may have
been missed on the way.
-/
namespace PhpFlow

open List

open Step (Shifts)

/-- Run from a state, the step asks for the type of `e`, and at that moment the state is `u`. -/
inductive Step.Asks (e : Expr) (u : State) : {α : Type} → Step α → State → Prop
  | here : Asks e u (Step.query e.type) u
  | first {α β : Type} {m : Step α} {f : α → Step β} {s : State} (h : Asks e u m s) : Asks e u (m >>= f) s
  | next {α β : Type} {m : Step α} {f : α → Step β} {s t : State} {a : α} (ht : m s = (.ok a, t))
      (h : Asks e u (f a) t) : Asks e u (m >>= f) s
  | ensuring {α : Type} {m : Step α} {last : Step Unit} {s : State} (h : Asks e u m s) :
      Asks e u (Step.ensuring m last) s
  | guarded {α : Type} {m : Step α} {s : State} (r : Range) (fallback : α) (h : Asks e u m s) :
      Asks e u (Step.guarded r fallback m) s

/-- What a return statement adds in the run of a step: nothing has the type void, and an expression the type that
is found for it in this run. -/
def Returned {α : Type} (m : Step α) (s : State) : Option Expr → TypeUnion × Option Value → Prop
  | none, r => r.1 = .prim .void
  | some e, r => ∃ u x, m.Asks e u s ∧ (e.type u).1 = .ok x ∧ r.1 = x.getD (.prim .mixed)

section Logs

variable {α β : Type} {m : Step α} {s t u : State} {es es' : List (Option Expr)}

theorem Returned.lift {n : Step β} (h : ∀ {e u}, m.Asks e u s → n.Asks e u t) (e : Option Expr)
    (r : TypeUnion × Option Value) (hr : Returned m s e r) : Returned n t e r := by
  cases e with
  | none => exact hr
  | some e =>
    obtain ⟨u, x, hasks, hx⟩ := hr
    exact ⟨u, x, h hasks, hx⟩

namespace Step

/-- However the step ends, it has added the types of some of these return statements, in this order. -/
def Logs (m : Step α) (es : List (Option Expr)) : Prop :=
  ∀ s : State, ∃ es' : List (Option Expr), es'.Sublist es ∧ s.Records (Returned m s) es' (m s).2

theorem logs_nil_iff : m.Logs [] ↔ m.Shifts State.Unlisted := by
  constructor
  · intro h s
    obtain ⟨es', hes, ⟨before, added, others, hs, ht, hadded⟩, hfunctions⟩ := h s
    obtain rfl := sublist_nil.mp hes
    cases hadded
    exact ⟨by rw [ht, hs, append_nil], hfunctions⟩
  · exact fun h s => ⟨[], .refl _, .of_unlisted (h s)⟩

namespace Logs

theorem of_shifts (h : m.Shifts State.Unlisted) : m.Logs es := fun s => ⟨[], nil_sublist es, .of_unlisted (h s)⟩

theorem bind {f : α → Step β} (hm : m.Logs es) (hf : ∀ a, (f a).Logs es') : (m >>= f).Logs (es ++ es') := by
  intro s
  obtain ⟨xs, hxs, hrecords⟩ := hm s
  rcases ht : m s with ⟨e | a, t⟩ <;> rw [ht] at hrecords
  · rw [bind_eq_of_error ht]
    exact ⟨xs, hxs.trans (sublist_append_left es es'), hrecords.imp (Returned.lift .first)⟩
  · obtain ⟨ys, hys, hrecords'⟩ := hf a t
    rw [bind_eq_of_ok ht]
    exact ⟨xs ++ ys, hxs.append hys,
      (hrecords.imp (Returned.lift .first)).append (hrecords'.imp (Returned.lift (.next ht)))⟩

theorem after {f : α → Step β} (hm : m.Shifts State.Unlisted) (hf : ∀ a, (f a).Logs es) :
    (m >>= f).Logs es := bind (logs_nil_iff.mpr hm) hf

theorem before {f : α → Step β} (hm : m.Logs es) (hf : ∀ a, (f a).Shifts State.Unlisted) :
    (m >>= f).Logs es := by
  have hboth := hm.bind fun a => logs_nil_iff.mpr (hf a)
  rwa [append_nil] at hboth

theorem ensuring {last : Step Unit} (hm : m.Logs es) (hlast : last.Shifts State.Unlisted) :
    (Step.ensuring m last).Logs es := by
  intro s
  obtain ⟨xs, hxs, hrecords⟩ := hm s
  refine ⟨xs, hxs, ?_⟩
  rw [ensuring_snd]
  exact (hrecords.imp (Returned.lift .ensuring)).unlisted (hlast _)

theorem guarded (hm : m.Logs es) (r : Range) (fallback : α) : (Step.guarded r fallback m).Logs es := by
  intro s
  obtain ⟨xs, hxs, hrecords⟩ := hm s
  refine ⟨xs, hxs, (hrecords.imp (Returned.lift (.guarded r fallback))).unlisted ?_⟩
  unfold Step.guarded
  rcases m s with ⟨e | a, t⟩
  · dsimp only
    split <;> exact Nominal.aside rfl rfl rfl
  · exact Nominal.aside rfl rfl rfl

section Constructs

variable {a b : Step Bool}

theorem andThen (ha : a.Logs es) (hb : b.Logs es') : (Step.andThen a b).Logs (es ++ es') := by
  refine ha.bind fun ok => ?_
  cases ok with
  | true => exact hb
  | false => exact of_shifts (.pure false)

theorem inLoop (hm : m.Logs es) : (Step.inLoop m).Logs es := after .modify fun _ => hm.ensuring .modify

theorem inScope (hm : m.Logs es) (h : Handle) : (Step.inScope h m).Logs es :=
  after (.pushScope h) fun _ => ensuring (after (.getFault _) fun _ => hm) (.leaveScope h)

theorem fork {first : Step Handle} {second : Handle → Step Handle} {work : Handle → Handle → Step Bool}
    (hfirst : first.Shifts State.Unlisted) (hsecond : ∀ k, (second k).Shifts State.Unlisted)
    (hwork : ∀ k₁ k₂, (work k₁ k₂).Logs es) : (Step.fork first second work).Logs es :=
  after (.getFault _) fun _ => after hfirst fun _ => after (hsecond _) fun _ =>
    before (hwork _ _) fun _ => .bind (.onArena _) fun _ => .pure _

theorem detour {makeBranch : Step Handle} (hm : MakesBranch makeBranch) (ha : a.Logs es) (side : BranchSide) :
    (Step.detour makeBranch side a).Logs es :=
  fork (hm.induction (forkClosed_shifts _)) (fun _ => .onArena _) fun k _ => ha.inScope k

theorem choice (c : Expr) (ha : a.Logs es) (hb : b.Logs es') : (Step.choice c a b).Logs (es ++ es') :=
  fork ((MakesBranch.condition c .onTrue).induction (forkClosed_shifts _))
    (fun _ => (MakesBranch.condition c .onFalse).induction (forkClosed_shifts _))
    fun k₁ k₂ => (ha.inScope k₁).andThen (hb.inScope k₂)

theorem analyzeArms {ess : List (List (Option Expr))} {ms : List (Step Bool)}
    (h : Forall₂ (fun es m => m.Logs es) ess ms) (parent : Handle) :
    (analyzeArms parent ms).Logs ess.flatten := by
  induction h with
  | nil => exact of_shifts (.pure _)
  | cons hm _ ih =>
    have harm : (inArm parent _).Logs _ :=
      after (.onArena _) fun k => before (hm.inScope k) fun _ => .pure _
    refine harm.bind fun r => ?_
    dsimp only
    split
    · exact before ih fun _ => .pure _
    · exact of_shifts (.pure _)

theorem switchArms {ess : List (List (Option Expr))} {ms : List (Step Bool)}
    (h : Forall₂ (fun es m => m.Logs es) ess ms) (hasDefault : Bool) :
    (switchArms hasDefault ms).Logs ess.flatten := by
  refine after (.getFault _) fun parent => before (analyzeArms h parent) fun r => ?_
  cases hasDefault with
  | true => exact .bind (.pure _) fun _ => .bind (.onArena _) fun _ => .pure _
  | false =>
    exact .bind (.onArena _) fun _ => .bind (.pure _) fun _ => .bind (.onArena _) fun _ => .pure _

theorem addReturned (e : Expr) : (do
    let u ← Step.query e.type
    let v ← Step.query e.value
    addReturn (u.getD (.prim .mixed)) v
    return true : Step Bool).Logs [some e] := by
  intro s
  have htype := query_eq e.type s
  have hs : s.Unlisted (Step.query e.type s).2 := Shifts.query e.type s
  rcases hu : Step.query e.type s with ⟨f | x, t⟩ <;> rw [hu] at htype hs
  · rw [bind_eq_of_error hu]
    exact ⟨[], nil_sublist _, .of_unlisted hs⟩
  have ht : t.Unlisted (Step.query e.value t).2 := Shifts.query e.value t
  rw [bind_eq_of_ok hu]
  rcases hv : Step.query e.value t with ⟨f | v, w⟩ <;> rw [hv] at ht
  · rw [bind_eq_of_error hv]
    exact ⟨[], nil_sublist _, .of_unlisted (Nominal.trans hs ht)⟩
  rw [bind_eq_of_ok hv]
  have hanswer : (e.type s).1 = .ok x := (Prod.mk.inj htype).1.symm
  have hw : s.Unlisted w := Nominal.trans hs ht
  refine ⟨[some e], .refl _, (State.Records.of_unlisted hw).append (.added ⟨s, x, .first .here, hanswer, rfl⟩)⟩

theorem addVoid : (Step.thenContinue (addReturn (.prim .void) none)).Logs [none] := by
  refine before (fun s => ⟨[none], .refl _, .added rfl⟩) fun _ => .pure true

end Constructs

end Logs

end Step

section Functions

variable {f : Function} {body : Step Bool}

/-- A function that is left again has returned nothing to those around it. -/
theorem Step.Logs.inFrame (hm : m.Logs es) (name : Option QualifiedName) :
    (Step.inFrame name m).Shifts State.Unlisted := by
  intro s
  obtain ⟨xs, -, hrecords⟩ := hm (Step.enterFrame name s)
  rw [Step.inFrame_apply]
  have hleft (t : State) : (Step.leaveFrame s.loopDepth t).ledger =
      (t.frames.tail ++ [t.fileFrame]).map (·.returns) ∧ (Step.leaveFrame s.loopDepth t).symbols = t.symbols := by
    unfold Step.leaveFrame
    split <;> simp_all [State.ledger]
  exact ⟨(hleft _).1.trans (hrecords.tail rfl), fun _ hn => (hleft _).2.symm ▸ hrecords.functions hn⟩

/-- What has been returned in a call that ends. -/
theorem Step.Logs.call (hm : m.Logs es) {names : List String} {name : Option QualifiedName} {x : α} {frame : Frame}
    (hs : withTemplates names (Step.inFrame name m) s = (.ok (x, frame), t)) : ∃ es' : List (Option Expr),
      es'.Sublist es ∧ Forall₂ (Returned (withTemplates names (Step.inFrame name m)) s) es' frame.returns := by
  change Step.ensuring (Step.inFrame name m) (Step.modify fun u => { u with templates := s.templates })
    { s with templates := s.templates ++ names } = _ at hs
  obtain ⟨_, ht, -⟩ := Step.exists_of_ensuring_eq_ok hs
  rw [Step.inFrame_apply] at ht
  obtain ⟨es', hes, hrecords⟩ := hm (Step.enterFrame name { s with templates := s.templates ++ names })
  rcases hrun : m (Step.enterFrame name { s with templates := s.templates ++ names }) with ⟨e | a, u⟩ <;>
    simp only [hrun, Except.map, Prod.mk.injEq, Except.ok.injEq, reduceCtorEq, false_and] at ht
  obtain ⟨⟨-, rfl⟩, -⟩ := ht
  rw [hrun] at hrecords
  refine ⟨es', hes, (hrecords.returns rfl).imp fun _ _ => Returned.lift (fun hasks => ?_) _ _⟩
  exact .next rfl (.next rfl (.ensuring (.next rfl (.next rfl (.ensuring (.first hasks))))))

end Functions

end Logs

end PhpFlow
