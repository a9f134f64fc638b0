import PhpFlow.Proofs.SmallSteps

/-!
# Forks

Where the code goes one of several ways, a branch of the current scope is made for each and narrowed by what
is known there, and in the end the branches are merged. A property of steps that holds of these operations
on scopes holds of every construct that forks if it holds of its arms.
-/
namespace PhpFlow

/-- A way to make a branch of the current scope: for an outcome of a condition, or for none. -/
inductive MakesBranch : Step Handle → Prop
  | condition (c : Expr) (side : BranchSide) : MakesBranch (c.branch side)
  | current (side : BranchSide) :
      MakesBranch (do let parent ← Step.currentHandle; Step.branch parent side)

theorem makesBranch_rightBranch (op : Operator) (left : Expr) : MakesBranch (op.rightBranch left) := by
  unfold Operator.rightBranch
  split
  · exact .condition left .onTrue
  · split
    · exact .condition left .onFalse
    · exact .current .neutral

theorem makesBranch_forBranch (conditions : List Expr) : MakesBranch (forBranch conditions) := by
  unfold forBranch
  split
  · exact .condition _ .onTrue
  · exact .current .onTrue

namespace Step

def fork (first : Step Handle) (second : Handle → Step Handle) (work : Handle → Handle → Step Bool) :
    Step Bool := do
  let parent ← currentHandle
  let k₁ ← first
  let k₂ ← second parent
  let ok ← work k₁ k₂
  merge parent [k₁, k₂]
  return ok

/-- An arm that may be left out: the right operand of a connective, or the body of a loop. -/
def detour (makeBranch : Step Handle) (side : BranchSide) (arm : Step Bool) : Step Bool :=
  fork makeBranch (branch · side) fun taken _ => inScope taken arm

end Step

/-- What a try statement does last comes after arms that are all there are. -/
theorem tryArms_eq (arms : List (Step Bool)) (last : Step Bool) :
    tryArms arms last = Step.andThen (switchArms true arms) last := by
  rw [tryArms, switchArms, Step.andThen, Step.bind_assoc]
  refine congrArg _ (funext fun parent => ?_)
  rw [Step.bind_assoc]
  refine congrArg _ (funext fun r => ?_)
  change _ = (do Step.merge parent (r.2 ++ []); return r.1 : Step Bool) >>= _
  rw [List.append_nil, Step.bind_assoc]
  rfl

/-- A property of small steps that also the operations on scopes have, whichever scopes they are about. -/
structure ForkClosed (Q : {α : Type} → Step α → Prop) : Prop where
  small : StepClosed fun _ => @Q
  getFault : ∀ {α : Type} (f : State → Except Fault α)
    (_ : ∀ s d, f { s with pendingDoc := d } = f s := by exact fun _ _ => rfl), Q (Step.getFault f)
  branch : ∀ parent side, Q (Step.branch parent side)
  narrowed : ∀ h name u,
    Q (Step.onArena fun a => (a.updateVar h name fun v => { v with narrowed := some u }).map fun b => ((), b))
  merge : ∀ parent branches, Q (Step.merge parent branches)
  discard : ∀ h, Q (Step.discard h)
  inScope : ∀ {α : Type} (h : Handle) {m : Step α}, Q m → Q (Step.inScope h m)

variable {Q : {α : Type} → Step α → Prop}

namespace ForkClosed

variable (h : ForkClosed Q)

include h

theorem pure {α : Type} (a : α) : Q (pure a) := h.small.pure (b := true) a

theorem bind {α β : Type} {m : Step α} {f : α → Step β} (hm : Q m)
    (hf : ∀ a, Q (f a)) : Q (m >>= f) :=
  h.small.bind (b := true) hm hf

theorem andThen {a b : Step Bool} (ha : Q a) (hb : Q b) : Q (Step.andThen a b) := by
  refine h.bind ha fun ok => ?_
  cases ok with
  | true => exact hb
  | false => exact h.pure false

section Narrowing

theorem narrowVariable (scope : Handle) (side : BranchSide) (name : String)
    (refine : Option TypeUnion → Option TypeUnion) : Q (narrowVariable scope side name refine) := by
  refine h.bind (h.getFault _) fun sc => ?_
  split
  · exact h.pure none
  · split
    · exact h.pure none
    · exact h.bind (h.branch _ _) fun k => h.bind (h.narrowed k name _) fun _ => h.pure _

theorem narrowNull (op : Operator) (r : Range) (a c : Expr) (scope : Handle)
    (side : BranchSide) : Q (op.narrowNull (.ofExprs r a c a.meaning c.meaning) scope side) := by
  refine h.bind (h.small.value (b := true) c) fun right => ?_
  extract_lets isNullSide last
  have hlast : ∀ name, Q (last name) := by
    intro name
    cases name with
    | none => exact h.pure none
    | some name => exact h.narrowVariable scope side name _
  split
  · exact h.bind (h.pure _) hlast
  · refine h.bind (h.small.value (b := true) a) fun left => ?_
    split
    · exact h.bind (h.pure _) hlast
    · exact h.bind (h.pure _) hlast

theorem narrowOperation (op : Operator) (r : Range) (a c : Expr) (scope : Handle)
    (side : BranchSide) : Q (op.narrow (.ofExprs r a c a.meaning c.meaning) scope side) := by
  cases op with
  | equal | notEqual | identical | notIdentical => exact h.narrowNull _ r a c scope side
  | instanceOf =>
    refine h.bind (h.small.query (b := true) (.className c)) fun name => ?_
    split
    · exact h.bind (h.small.get (b := true) fun _ => rfl) fun _ => h.narrowVariable scope side _ _
    · exact h.pure none
  | _ => exact h.pure none

end Narrowing

end ForkClosed

section Branches

theorem Expr.narrow_induction (h : ForkClosed Q) (c : Expr) (scope : Handle) (side : BranchSide) :
    Q (c.narrow scope side) := by
  cases c with
  | paren r a => exact a.narrow_induction h scope side
  | unary r op a =>
    rw [Expr.narrow]
    split
    · exact a.narrow_induction h scope side.flip
    · exact h.pure none
  | var r n => exact h.narrowVariable scope side n _
  | binary r a token b =>
    rw [Expr.narrow]
    split
    · exact h.pure none
    · next op _ =>
      split
      · refine h.bind (a.narrow_induction h scope side) fun first =>
          h.bind (h.inScope _ (b.narrow_induction h _ side)) fun second => ?_
        split
        · exact h.pure _
        · exact h.pure _
        · exact h.bind (h.discard _) fun _ => h.pure _
      · exact h.inScope scope (h.narrowOperation op r a b scope side)
  | _ => exact h.pure none

theorem MakesBranch.induction (h : ForkClosed Q) {m : Step Handle} (hm : MakesBranch m) : Q m := by
  cases hm with
  | current side => exact h.bind (h.getFault _) fun _ => h.branch _ _
  | condition c side =>
    refine h.bind (h.getFault _) fun parent => h.bind (c.narrow_induction h parent side) fun found => ?_
    cases found with
    | some k => exact h.pure k
    | none => exact h.branch _ _

end Branches

namespace ForkClosed

variable (h : ForkClosed Q)

include h

section Arms

variable {arms : List (Step Bool)}

theorem fork {first : Step Handle} {second : Handle → Step Handle}
    {work : Handle → Handle → Step Bool} (hfirst : Q first) (hsecond : ∀ k, Q (second k))
    (hwork : ∀ k₁ k₂, Q (work k₁ k₂)) : Q (Step.fork first second work) :=
  h.bind (h.getFault _) fun _ => h.bind hfirst fun _ => h.bind (hsecond _) fun _ => h.bind (hwork _ _) fun _ =>
    h.bind (h.merge _ _) fun _ => h.pure _

theorem detour {makeBranch : Step Handle} {arm : Step Bool}
    (hm : MakesBranch makeBranch) (harm : Q arm) (side : BranchSide) : Q (Step.detour makeBranch side arm) :=
  h.fork (hm.induction h) (fun _ => h.branch _ _) fun taken _ => h.inScope taken harm

theorem choice (c : Expr) {onTrue onFalse : Step Bool} (ht : Q onTrue)
    (hf : Q onFalse) : Q (Step.choice c onTrue onFalse) :=
  h.fork ((MakesBranch.condition c .onTrue).induction h)
    (fun _ => (MakesBranch.condition c .onFalse).induction h)
    fun k₁ k₂ => h.andThen (h.inScope k₁ ht) (h.inScope k₂ hf)

theorem analyzeArms (parent : Handle) (harms : ∀ m ∈ arms, Q m) :
    Q (analyzeArms parent arms) := by
  induction arms with
  | nil => exact h.pure _
  | cons arm arms ih =>
    obtain ⟨harm, harms⟩ := List.forall_mem_cons.mp harms
    have hfirst : Q (inArm parent arm) :=
      h.bind (h.branch _ _) fun k => h.bind (h.inScope k harm) fun _ => h.pure _
    refine h.bind hfirst fun r => ?_
    dsimp only
    split
    · exact h.bind (ih harms) fun _ => h.pure _
    · exact h.pure _

theorem switchArms (hasDefault : Bool) (harms : ∀ m ∈ arms, Q m) :
    Q (switchArms hasDefault arms) := by
  refine h.bind (h.getFault _) fun parent => h.bind (h.analyzeArms parent harms) fun r => ?_
  cases hasDefault with
  | true => exact h.bind (h.pure []) fun _ => h.bind (h.merge _ _) fun _ => h.pure _
  | false =>
    exact h.bind (h.branch _ _) fun _ => h.bind (h.pure _) fun _ => h.bind (h.merge _ _) fun _ => h.pure _

end Arms

section Functions

theorem reportUnused (root : Handle) : Q (reportUnused root) := by
  refine h.bind (h.small.get (b := true) fun _ => rfl) fun on => ?_
  split
  · exact h.bind (h.getFault _) fun scope => h.small.reportUnusedAll (b := true) scope.vars
  · exact h.pure ()

/-- A function has a frame and template names of its own. -/
theorem infer
    (hcall : ∀ names name {m : Step Unit}, Q m → Q (withTemplates names (Step.inFrame name m)))
    (f : Function) (name : QualifiedName) {body : Step Bool} (hbody : Q body) : Q (f.infer name body) := by
  refine h.bind (hcall _ _ (h.bind (h.getFault _) fun root =>
    h.bind (h.small.bindParameters _ _) fun _ => ?_)) fun _ => h.pure _
  split
  · exact h.bind hbody fun _ => h.reportUnused root
  · exact h.bind (h.small.readDocType (b := true) _ _) fun _ => h.bind hbody fun _ => h.reportUnused root

end Functions

end ForkClosed

section Nominal

/-- What functions have returned so far, innermost first, and the file at the end. -/
def State.ledger (s : State) : List (List (TypeUnion × Option Value)) :=
  (s.frames ++ [s.fileFrame]).map (·.returns)

theorem State.ledger_updateFrame (s : State) {g : Frame → Frame} (hg : ∀ f, (g f).returns = f.returns) :
    (s.updateFrame g).ledger = s.ledger := by
  cases hf : s.frames <;> simp [updateFrame, ledger, hf, hg]

/-- A relation between states that leads on, and that a change of scopes alone does not break: it is about what
names stand for and what functions have returned. -/
class Nominal (R : State → State → Prop) : Prop where
  trans : ∀ {s t u}, R s t → R t u → R s u
  aside : ∀ {s t : State}, t.namespaceName = s.namespaceName → t.symbols = s.symbols →
    t.ledger = s.ledger → R s t

variable {α : Type} {m : Step α} {R : State → State → Prop} [hR : Nominal R]

instance : Onward R := ⟨hR.trans, fun _ _ => hR.aside rfl rfl rfl⟩

namespace Step.Shifts

theorem modify {g : State → State}
    (hns : ∀ s, (g s).namespaceName = s.namespaceName := by exact fun _ => rfl)
    (hsymbols : ∀ s, (g s).symbols = s.symbols := by exact fun _ => rfl)
    (hledger : ∀ s, (g s).ledger = s.ledger := by exact fun _ => rfl) : (Step.modify g).Shifts R :=
  fun s => hR.aside (hns s) (hsymbols s) (hledger s)

theorem onArena (f : Arena → Except Fault (α × Arena)) : (Step.onArena f).Shifts R := by
  intro s
  unfold Step.onArena
  split <;> exact hR.aside rfl rfl rfl

theorem updateFrame {s : State} {g : Frame → Frame} (hg : ∀ f, (g f).returns = f.returns) :
    R s (s.updateFrame g) := by
  refine hR.aside ?_ ?_ (s.ledger_updateFrame hg)
  all_goals cases hf : s.frames <;> simp [State.updateFrame, hf]

theorem pushScope (h : Handle) : (Step.pushScope h).Shifts R := fun _ => updateFrame fun _ => rfl

theorem leaveScope (h : Handle) : (Step.leaveScope h).Shifts R := by
  have hpop : popScope.Shifts R := by
    intro s
    unfold popScope
    split
    · exact hR.aside rfl rfl rfl
    · exact updateFrame fun _ => rfl
  refine .bind hpop fun popped => ?_
  split
  · exact .pure ()
  · exact .fail _

theorem inScope (hm : m.Shifts R) (h : Handle) : (Step.inScope h m).Shifts R :=
  .bind (pushScope h) fun _ => .ensuring (.bind (.getFault _) fun _ => hm) (leaveScope h)

theorem inLoop (hm : m.Shifts R) : (Step.inLoop m).Shifts R :=
  .bind .modify fun _ => .ensuring hm .modify

end Step.Shifts

variable (R) in
theorem forkClosed_shifts : ForkClosed fun m => m.Shifts R where
  small :=
    { pure := .pure
      bind := .bind
      guarded := fun r fallback hm => hm.guarded r fallback
      get _ := .get _
      currentScope := .getFault _
      query := fun _ => .query _
      read := fun _ _ => .bind (.getFault _) fun _ => .onArena _
      note := fun _ _ _ => .bind (.getFault _) fun _ => .onArena _
      write := fun _ _ _ => .bind (.getFault _) fun _ => .onArena _
      waiting := .get _
      setDoc := fun _ => .modify }
  getFault f _ := .getFault f
  branch _ _ := .onArena _
  narrowed _ _ _ := .onArena _
  merge _ _ := .onArena _
  discard _ := .modify
  inScope h _ hm := hm.inScope h

variable (R) in
theorem storeClosed_shifts : StoreClosed fun _ _ m => m.Shifts R :=
  (forkClosed_shifts R).small.stores fun _ _ _ _ => .bind (.get _) fun _ => .bind (.getFault _) fun _ => .onArena _

end Nominal

end PhpFlow
