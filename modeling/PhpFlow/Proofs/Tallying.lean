import PhpFlow.Proofs.Arms
import PhpFlow.Proofs.Frames
import PhpFlow.Proofs.Ledger

/-!
# Steps that count what code uses

A step adds to the counts of the current scope what the code that it analyses uses. What is done in sequence
adds up, and so does what is done in the arms of a construct. A function inside the code adds nothing, because
it counts in a scope of its own.
-/
namespace PhpFlow

namespace Usage

@[simp] theorem append_none (u : Usage) : u ++ none = u := by
  obtain ⟨rs, ws⟩ := u
  exact congrArg₂ Usage.mk (List.append_nil rs) (List.append_nil ws)

theorem flatten_concat_none (us : List Usage) : flatten (us ++ [none]) = flatten us := by
  induction us with
  | nil => rfl
  | cons u us ih => rw [List.cons_append, flatten, ih, flatten]

end Usage

namespace Scope

variable {sc arm sc' : Scope} {n n' : Nat} {u : Usage}

theorem Orderly.copied (h : sc.Orderly n) (hc : sc.CopiedTo arm) : arm.Orderly n where
  toNumbered := h.toNumbered.congr hc.trail
  names := (congrArg List.Nodup (hc.map_vars fun _ => rfl)).mpr h.names
  once x := by
    rw [hc.trail]
    exact h.once x
  counted x v hv := by
    have hx := hc.map_var? (f := fun v => (v.writes, v.history)) (fun _ => rfl) x
    rw [hv, Option.map_some] at hx
    obtain ⟨w, hw, hwv⟩ := Option.map_eq_some_iff.mp hx.symm
    obtain ⟨hwrites, hhistory⟩ := Prod.mk.inj hwv
    rw [← hwrites, ← hhistory]
    exact h.counted x w hw

theorem Gains.of_copy (h : arm.Gains n u sc' n') (hc : sc.CopiedTo arm) : sc.Gains n u sc' n' where
  next := h.next
  orderly := h.orderly
  grows := h.grows.congr hc.trail
  known x hx := by simpa [h.known x hx] using (hc.map_var? (f := Variable.name) (fun _ => rfl) x).symm
  reads x := by rw [h.reads, Scope.reads, hc.map_var? fun _ => rfl, Scope.reads]
  writes x := by rw [h.writes, hc.trail]
  arguments x := by rw [h.arguments, isArgument, hc.map_var? fun _ => rfl, isArgument]

end Scope

structure Local.Adds (u : Usage) (l l' : Local) : Prop where
  gains : l.scope.Gains l.next u l'.scope l'.next
  config : l'.rest.config = l.rest.config

namespace Local.Adds

variable {u v : Usage} {l m l' : Local}

theorem refl (h : l.scope.Orderly l.next) : l.Adds .none l := ⟨.later h (Nat.le_refl _), rfl⟩

theorem trans (h : l.Adds u m) (h' : m.Adds v l') : l.Adds (u ++ v) l' :=
  ⟨h.gains.trans h'.gains, h'.config.trans h.config⟩

theorem orderly (h : l.Adds u l') : l'.scope.Orderly l'.next := h.gains.orderly

theorem with_rest (h : l.Adds u l') {ρ ρ' : State} (hconfig : ρ'.config = ρ.config) :
    Local.Adds u { l with rest := ρ } { l' with rest := ρ' } :=
  ⟨h.gains, hconfig⟩

end Local.Adds

namespace Step

variable {α β : Type}

def Adds (m : Step α) (u : Usage) : Prop :=
  m.Acts fun l _ l' => l.scope.Orderly l.next → l.Adds u l'

instance : Passage fun l l' => l.scope.Orderly l.next → l.Adds .none l' where
  trans h h' hl := (h hl).trans (h' (h hl).orderly)
  sink h hl := by
    refine ⟨?_, by rw [h.rest]⟩
    rw [h.scope, h.next]
    exact .later hl (Nat.le_refl _)

namespace Adds

variable {u v : Usage} {m : Step α}

theorem pure (a : α) : (Pure.pure a : Step α).Adds .none := Passes.pure a

theorem bind {f : α → Step β} (hm : m.Adds u) (hf : ∀ a, (f a).Adds v) : (m >>= f).Adds (u ++ v) := by
  refine (Acts.bind hm hf).mono ?_
  rintro l b l' ⟨a, l₁, h₁, h₂⟩ h
  exact (h₁ h).trans (h₂ (h₁ h).orderly)

theorem after {f : α → Step β} (hm : m.Adds .none) (hf : ∀ a, (f a).Adds u) : (m >>= f).Adds u :=
  bind hm hf

theorem query {q : Query α} (hq : q.NumericFaults) : (Step.query q).Adds .none := Passes.query hq

theorem report (kind : IssueKind) (message : String) (range : Option Range) :
    (Step.report kind message range).Adds .none :=
  Passes.report kind message range

theorem get {f : State → α} (hf : ∀ s, f s.rest = f s) : (Step.get f).Adds .none := Passes.get hf

theorem currentScope : (Step.getFault State.currentScope).Adds .none := Passes.currentScope

theorem modify {g : State → State} (hg : RestOnly g) (hconfig : ∀ s, (g s).config = s.config) :
    (Step.modify g).Adds .none :=
  Passes.modify hg fun l h => ⟨.later h (Nat.le_refl _), hconfig l.rest⟩

theorem ensuring {g : State → State} (hm : m.Adds u) (hg : RestOnly g)
    (hconfig : ∀ s, (g s).config = s.config) : (Step.ensuring m (Step.modify g)).Adds u := by
  refine (Acts.ensuring hm hg).mono ?_
  rintro l a l' ⟨l₁, h₁, rfl⟩ h
  exact (h₁ h).with_rest ((hconfig l₁.rest).trans (h₁ h).config)

theorem touch (name : String) {f : Variable → Variable} (hf : ∀ v, (f v).account = v.account) :
    (Step.updateVar name f).Adds .none :=
  Passes.updateVar name f fun _ h => ⟨.touch h name hf, rfl⟩

theorem read (name : String) (r : Option Range) :
    (Step.updateVar name fun v => v.read r).Adds (.reading [name]) :=
  Passes.updateVar name _ fun _ h => ⟨.read h name r, rfl⟩

theorem write (name : String) (type : TypeUnion) (value : Option Value) (range : Option Range) :
    (Step.write name type value range).Adds (.writing [name]) := by
  refine (Acts.write name type value range).mono ?_
  rintro l _ _ rfl h
  exact ⟨.write h name rfl, rfl⟩

end Adds

def Completed (u : Usage) (l : Local) (ok : Bool) (l' : Local) : Prop :=
  l.scope.Orderly l.next → ok = true ∧ l.Adds u l'

/-- The step adds to the counts what `u` lists, and the analysis goes on after it. -/
def Completes (m : Step Bool) (u : Usage) : Prop := m.Acts (Completed u)

end Step

theorem Scope.orderly_root (h : Handle) (n : Nat) : (Scope.root h).Orderly n := by
  have htrail : ∀ x, (Scope.root h).trail x = .empty := fun _ => rfl
  constructor
  · constructor <;> simp [htrail, Trail.empty, Trail.Distinguished]
  · simp [Scope.root]
  · simp [htrail, Trail.empty, Write.ids]
  · intro x v hv
    cases hv

namespace Step

namespace Completes

variable {α : Type} {a b : Step Bool} {u v : Usage}
variable {us : List Usage}

theorem adds (ha : a.Completes u) : a.Adds u := Acts.mono ha fun _ _ _ h hl => (h hl).2

theorem continue_ : (Pure.pure true : Step Bool).Completes .none := by
  refine (Acts.pure true).mono ?_
  rintro l _ _ ⟨rfl, rfl⟩ h
  exact ⟨rfl, .refl h⟩

theorem andThen (ha : a.Completes u) (hb : b.Completes v) : (Step.andThen a b).Completes (u ++ v) := by
  refine (Acts.andThen ha hb).mono ?_
  rintro l ok l' (⟨h₁, -⟩ | ⟨m, h₁, h₂⟩) h
  · cases (h₁ h).1
  · obtain ⟨-, hm⟩ := h₁ h
    obtain ⟨hok, hl'⟩ := h₂ hm.orderly
    exact ⟨hok, hm.trans hl'⟩

theorem after {m : Step α} {f : α → Step Bool} (hm : m.Adds u) (hf : ∀ x, (f x).Completes v) :
    (m >>= f).Completes (u ++ v) := by
  refine (Acts.bind hm hf).mono ?_
  rintro l r l' ⟨x, l₁, h₁, h₂⟩ h
  obtain ⟨hr, hl'⟩ := h₂ (h₁ h).orderly
  exact ⟨hr, (h₁ h).trans hl'⟩

theorem thenContinue {m : Step Unit} (hm : m.Adds u) : (Step.thenContinue m).Completes u := by
  have h := after hm fun _ => continue_
  rwa [Usage.append_none] at h

theorem ensuring {g : State → State} (ha : a.Completes u) (hg : RestOnly g)
    (hconfig : ∀ s, (g s).config = s.config) : (Step.ensuring a (Step.modify g)).Completes u := by
  refine (Acts.ensuring ha hg).mono ?_
  rintro l r l' ⟨l₁, h₁, rfl⟩ h
  obtain ⟨hr, hl₁⟩ := h₁ h
  exact ⟨hr, hl₁.with_rest ((hconfig l₁.rest).trans hl₁.config)⟩

theorem inLoop (ha : a.Completes u) : (Step.inLoop a).Completes u := by
  refine (Acts.inLoop ha).mono ?_
  rintro l r l' ⟨l₁, h₁, rfl⟩ h
  obtain ⟨hr, hl₁⟩ := h₁ h
  exact ⟨hr, hl₁.with_rest hl₁.config⟩

theorem armsGain_of_armsRun {sc : Scope} {n n' : Nat} {ρ ρ' : State} {ok : Bool} {arms : List Scope}
    (hsc : sc.Orderly n) (h : ArmsRun sc (us.map Completed) n ρ ok arms n' ρ') :
    ok = true ∧ sc.ArmsGain n us arms n' ∧ ρ'.config = ρ.config := by
  induction us generalizing n ρ arms with
  | nil =>
    cases h
    exact ⟨rfl, .nil _, rfl⟩
  | cons u us ih =>
    cases h with
    | stop harm hΦ _ => cases (hΦ (hsc.copied harm)).1
    | cons harm hΦ hrest =>
      obtain ⟨-, hadds⟩ := hΦ (hsc.copied harm)
      have hgains := hadds.gains.of_copy harm
      obtain ⟨hok, harms, hconfig⟩ := ih (hsc.mono hgains.next) hrest
      exact ⟨hok, .cons hgains harms, hconfig.trans hadds.config⟩

theorem of_armed (us : List Usage) (ha : a.Acts (Armed (us.map Completed))) (hsome : us ≠ []) :
    a.Completes (.flatten us) := by
  refine ha.mono ?_
  rintro l ok ⟨_, n, ρ⟩ ⟨k, arms, hrun, rfl⟩ h
  obtain ⟨hok, harms, hconfig⟩ := armsGain_of_armsRun h hrun
  refine ⟨hok, harms.merge ?_ h, hconfig⟩
  rintro rfl
  cases harms
  exact hsome rfl

theorem idle (l : Local) : Completed .none l true l := fun h => ⟨rfl, .refl h⟩

/-- An arm that may be left out counts in any case. -/
theorem detour {makeBranch : Step Handle} (hm : MakesBranch makeBranch) (ha : a.Completes u)
    (side : BranchSide) : (Step.detour makeBranch side a).Completes u := by
  simpa [Usage.flatten] using of_armed [u, .none] (Acts.detour hm ha idle side) (by simp)

theorem choice (c : Expr) (ha : a.Completes u) (hb : b.Completes v) :
    (Step.choice c a b).Completes (u ++ v) := by
  simpa [Usage.flatten] using of_armed [u, v] (Acts.choice c ha hb) (by simp)

theorem switchArms {ms : List (Step Bool)} (hms : List.Forall₂ Completes ms us) {hasDefault : Bool}
    (hsome : hasDefault → us ≠ []) : (PhpFlow.switchArms hasDefault ms).Completes (.flatten us) := by
  have harms := Acts.switchArms (List.forall₂_map_right_iff.mpr hms) idle hasDefault
  cases hasDefault with
  | true => exact of_armed _ (by simpa using harms) (hsome rfl)
  | false =>
    rw [← Usage.flatten_concat_none]
    exact of_armed _ (by simpa using harms) (by simp)

end Completes

/-- The step may count, but not here. -/
def Proceeds {α : Type} (m : Step α) : Prop :=
  m.Acts fun l _ l' => l.scope.Orderly l.next → l.next ≤ l'.next ∧ l'.rest.config = l.rest.config

theorem Proceeds.inFrame {α : Type} {m : Step α} (hm : m.Proceeds) (name : Option QualifiedName) :
    (Step.inFrame name m).Adds .none := by
  refine (Acts.inFrame hm name).mono ?_
  rintro l a l' ⟨k, m', hm', -, rfl⟩ h
  obtain ⟨hnext, hconfig⟩ := hm' (Scope.orderly_root k l.next)
  exact ⟨.later h hnext, hconfig⟩

end Step

end PhpFlow
