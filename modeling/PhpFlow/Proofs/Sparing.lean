import PhpFlow.Proofs.Arms
import PhpFlow.Proofs.Frames
import PhpFlow.Proofs.Standing

/-!
# Steps that leave variables alone

A step spares some variables if it leaves them as they stand. Constructs spare what their parts spare, since
merging gives back what no arm has written to. As doc comments change the types of variables, no step that
spares may leave one for the code after it.
-/
namespace PhpFlow

/-- Between `l` and `l'` the variables stand as they did, and no doc comment has come up. -/
structure Local.Spares (kept : List String) (l l' : Local) : Prop where
  doc : l'.rest.pendingDoc = none
  standing : ∀ x ∈ kept, (l.scope.trail x).Coherent → l'.scope.standing x = l.scope.standing x

/-- In `arm` the variables stand as in `sc`, but for what is narrowed. -/
def Scope.Matches (kept : List String) (sc arm : Scope) : Prop :=
  ∀ x ∈ kept, (sc.trail x).Coherent → (arm.standing x).unnarrowed = (sc.standing x).unnarrowed

namespace Scope

variable {kept : List String} {sc arm : Scope}

theorem CopiedTo.standing (h : sc.CopiedTo arm) (x : String) :
    (arm.standing x).unnarrowed = (sc.standing x).unnarrowed := by
  have hget : ∀ sc : Scope, (sc.standing x).unnarrowed =
      ((sc.var? x).map fun v => v.standing.unnarrowed).getD .unknown := by
    intro sc
    cases hv : sc.var? x <;> simp [Scope.standing, hv, Standing.unnarrowed, Standing.unknown]
  rw [hget, hget, h.map_var? fun _ => rfl]

theorem CopiedTo.matches (h : sc.CopiedTo arm) : sc.Matches kept arm := fun x _ _ => h.standing x

/-- Code that runs in a copy and spares the variables. -/
theorem CopiedTo.then {n : Nat} {ρ : State} {m : Local} (h : sc.CopiedTo arm)
    (hm : Local.Spares kept ⟨arm, n, ρ⟩ m) : sc.Matches kept m.scope := by
  intro x hx hcoherent
  rw [hm.standing x hx (h.trail x ▸ hcoherent), h.standing x]

end Scope

namespace Local.Spares

variable {kept : List String} {l m l' : Local}

theorem trans (h : l.Spares kept m) (h' : m.Spares kept l') : l.Spares kept l' := by
  refine ⟨h'.doc, fun x hx hcoherent => ?_⟩
  have hmid := h.standing x hx hcoherent
  have htrail : m.scope.trail x = l.scope.trail x := by
    rw [← Scope.standing_trail, hmid, Scope.standing_trail]
  exact (h'.standing x hx (htrail ▸ hcoherent)).trans hmid

instance (kept : List String) : Passage fun l l' => l.rest.pendingDoc = none → l.Spares kept l' where
  trans h h' hdoc := (h hdoc).trans (h' (h hdoc).doc)
  sink h hdoc := ⟨by rw [h.rest]; exact hdoc, fun x _ _ => by rw [h.scope]⟩

/-- A construct spares what all its arms have left alone. -/
theorem merge {arms : List Scope} {n : Nat} {ρ : State} (hne : arms ≠ []) (hdoc : ρ.pendingDoc = none)
    (harms : ∀ arm ∈ arms, l.scope.Matches kept arm) : l.Spares kept ⟨l.scope.merge arms, n, ρ⟩ :=
  ⟨hdoc, fun x hx hcoherent => Scope.standing_merge hne hcoherent fun arm harm => harms arm harm x hx hcoherent⟩

end Local.Spares

namespace Step

variable {α β : Type}

/-- The step leaves the variables as they stand, unless a doc comment waits for it. -/
def Spares (m : Step α) (kept : List String) : Prop :=
  m.Acts fun l _ l' => l.rest.pendingDoc = none → l.Spares kept l'

abbrev Spared (kept : List String) : Outcome := fun l _ l' => l.rest.pendingDoc = none → l.Spares kept l'

theorem spared_idle {kept : List String} (l : Local) : Spared kept l true l := fun h => ⟨h, fun _ _ _ => rfl⟩

namespace Spares

variable {kept : List String} {m : Step α} {a b : Step Bool}

theorem pure (x : α) : (Pure.pure x : Step α).Spares kept := Passes.pure x

theorem bind {f : α → Step β} (hm : m.Spares kept) (hf : ∀ x, (f x).Spares kept) : (m >>= f).Spares kept :=
  Passes.bind hm hf

theorem modify {g : State → State} (hg : RestOnly g) (hdoc : ∀ s, (g s).pendingDoc = s.pendingDoc) :
    (Step.modify g).Spares kept :=
  Passes.modify hg fun l h => ⟨(hdoc l.rest).trans h, fun _ _ _ => rfl⟩

theorem ensuring {g : State → State} (hm : m.Spares kept) (hg : RestOnly g)
    (hdoc : ∀ s, (g s).pendingDoc = s.pendingDoc) : (Step.ensuring m (Step.modify g)).Spares kept :=
  Passes.ensuring hm hg fun l h => ⟨(hdoc l.rest).trans h, fun _ _ _ => rfl⟩

/-- A variable that is not to be kept may change, and the others as far as it does not show. -/
theorem updateVar {name : String} {f : Variable → Variable} (hname : ∀ v, (f v).name = v.name)
    (hf : name ∈ kept → ∀ v, (f v).standing = v.standing) : (Step.updateVar name f).Spares kept :=
  Passes.updateVar name f fun _ h =>
    ⟨h, fun _ hx _ => Scope.map_standing_updateVar (g := id) hname fun he => hf (he ▸ hx)⟩

theorem write {name : String} (hn : name ∉ kept) (type : TypeUnion) (value : Option Value)
    (range : Option Range) : (Step.write name type value range).Spares kept := by
  refine (Acts.write name type value range).mono ?_
  rintro l _ _ rfl h
  exact ⟨h, fun _ hx _ => Scope.map_standing_updateVar (g := id) (f := (·.write _)) (fun _ => rfl)
    fun he => absurd (he ▸ hx) hn⟩

theorem inLoop (ha : m.Spares kept) : (Step.inLoop m).Spares kept := by
  refine (Acts.inLoop ha).mono ?_
  rintro l _ _ ⟨l₁, h₁, rfl⟩ h
  exact ⟨(h₁ h).doc, (h₁ h).standing⟩

theorem andThen (ha : a.Spares kept) (hb : b.Spares kept) : (Step.andThen a b).Spares kept := by
  refine .bind ha fun ok => ?_
  cases ok with
  | true => exact hb
  | false => exact .pure false

theorem thenContinue {m : Step Unit} (hm : m.Spares kept) : (Step.thenContinue m).Spares kept :=
  .bind hm fun _ => .pure true

/-- Arms one after the other, each of which spares the variables. -/
theorem of_armsRun {sc : Scope} {n n' : Nat} {ρ ρ' : State} {ok : Bool} {arms : List Scope}
    {Φs : List Outcome} (h : ArmsRun sc Φs n ρ ok arms n' ρ')
    (hΦs : ∀ Φ ∈ Φs, Φ = Spared kept) (hdoc : ρ.pendingDoc = none) :
    ρ'.pendingDoc = none ∧ (Φs ≠ [] → arms ≠ []) ∧ ∀ arm ∈ arms, sc.Matches kept arm := by
  induction h with
  | nil => exact ⟨hdoc, fun h => absurd rfl h, by simp⟩
  | stop harm hΦ hleft =>
    obtain rfl := hΦs _ List.mem_cons_self
    exact ⟨(hΦ hdoc).doc, fun _ => by simp,
      List.forall_mem_cons.mpr ⟨harm.then (hΦ hdoc), fun o ho => (hleft o ho).matches⟩⟩
  | cons harm hΦ _ ih =>
    obtain ⟨rfl, hothers⟩ := List.forall_mem_cons.mp hΦs
    obtain ⟨hlast, -, hrest⟩ := ih hothers (hΦ hdoc).doc
    exact ⟨hlast, fun _ => by simp, List.forall_mem_cons.mpr ⟨harm.then (hΦ hdoc), hrest⟩⟩

theorem of_armed {Φs : List Outcome} (ha : a.Acts (Armed Φs)) (hsome : Φs ≠ [])
    (hΦs : ∀ Φ ∈ Φs, Φ = Spared kept) : a.Spares kept := by
  refine ha.mono ?_
  rintro l ok ⟨_, n, ρ⟩ ⟨k, arms, hrun, rfl⟩ h
  obtain ⟨hdoc, hne, harms⟩ := of_armsRun hrun hΦs h
  exact .merge (hne hsome) hdoc harms

theorem detour {makeBranch : Step Handle} (hm : MakesBranch makeBranch) (ha : a.Spares kept)
    (side : BranchSide) : (Step.detour makeBranch side a).Spares kept :=
  of_armed (Acts.detour hm ha (Ψ := Spared kept) spared_idle side) (by simp) (by simp)

theorem choice (c : Expr) (ha : a.Spares kept) (hb : b.Spares kept) : (Step.choice c a b).Spares kept :=
  of_armed (Acts.choice c ha hb) (by simp) (by simp)

theorem switchArms {ms : List (Step Bool)} (hms : ∀ m ∈ ms, m.Spares kept) {hasDefault : Bool}
    (hsome : hasDefault → ms ≠ []) : (PhpFlow.switchArms hasDefault ms).Spares kept := by
  have hΦs : List.Forall₂ (fun m Φ => Acts m Φ) ms (ms.map fun _ => Spared kept) :=
    List.forall₂_map_right_iff.mpr (List.forall₂_same.mpr hms)
  refine of_armed (Acts.switchArms hΦs (Ψ := Spared kept) spared_idle hasDefault) ?_ ?_
  · cases hasDefault <;> simp_all
  · cases hasDefault <;> simp +contextual [or_imp]

/-- What a function does with its own variables does not concern those around it. -/
theorem inFrame (hm : m.Spares []) (name : Option QualifiedName) : (Step.inFrame name m).Spares kept := by
  refine (Acts.inFrame hm name).mono ?_
  rintro l _ _ ⟨k, m', hm', -, rfl⟩ h
  exact ⟨(hm' h).doc, fun _ _ _ => rfl⟩

end Spares

end Step

end PhpFlow
