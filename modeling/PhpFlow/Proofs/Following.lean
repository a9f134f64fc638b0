import PhpFlow.Proofs.Paths
import PhpFlow.Proofs.Progress

/-!
# Steps that follow the paths of code

What is live in a scope stands for the writes that may be the last one. A step follows a route if it turns
the last writes that are possible before the route into those that are possible after it. Steps that follow
routes can be put together as the code is.
-/
namespace PhpFlow

variable {sc : Scope} {x : String}

/-- The writes to `x` that may be the last one, with `none` for no write. -/
def Trail.reaching (x : String) (t : Trail) : Set (Option WriteEvent) :=
  {d | (∃ w ∈ t.live, d = some ⟨x, w.id, w.range⟩) ∨ (t.unwritten ∧ d = none)}

def Scope.reaching (sc : Scope) (x : String) : Set (Option WriteEvent) := (sc.trail x).reaching x

theorem Scope.reaching_nonempty (sc : Scope) (x : String) : (sc.reaching x).Nonempty := by
  have hsome : (sc.trail x).live ≠ [] ∨ (sc.trail x).unwritten := by
    cases hv : sc.var? x with
    | none => exact .inr (by simp [trail, hv, Trail.empty])
    | some v =>
      by_cases hl : v.live = []
      · exact .inr (by simp [trail, hv, Variable.trail, hl])
      · exact .inl (by simpa [trail, hv, Variable.trail] using hl)
  rcases hsome with hlive | hun
  · obtain ⟨w, hw⟩ := List.exists_mem_of_ne_nil _ hlive
    exact ⟨_, .inl ⟨w, hw, rfl⟩⟩
  · exact ⟨none, .inr ⟨hun, rfl⟩⟩

theorem Scope.reaching_congr {sc' : Scope} (h : sc'.trail x = sc.trail x) :
    sc'.reaching x = sc.reaching x := by
  rw [reaching, reaching, h]

theorem Scope.none_mem_reaching : none ∈ sc.reaching x ↔ (sc.trail x).unwritten := by
  simp [reaching, Trail.reaching]

/-- If the last writes are the same then so are the live writes, because a number belongs to one write. -/
theorem Scope.mem_live_of_reaching_eq {sc' : Scope} {n n' : Nat} (hnum : sc.Numbered n)
    (hnum' : sc'.Numbered n') (hg : sc.GrowsTo n sc') (h : sc'.reaching x = sc.reaching x) {w : Write}
    (hw : w ∈ (sc.trail x).live) : w ∈ (sc'.trail x).live := by
  have hreach : some ⟨x, w.id, w.range⟩ ∈ sc'.reaching x := h ▸ .inl ⟨w, hw, rfl⟩
  rcases hreach with ⟨w', hw', he⟩ | ⟨-, he⟩
  · have hid : w.id = w'.id := by
      simp only [Option.some.injEq, WriteEvent.mk.injEq] at he
      exact he.2.1
    have hold := (hg.kept x).subset (hnum.live x w hw)
    rw [hnum'.same x w hold w' (hnum'.live x w' hw') hid]
    exact hw'
  · cases he

/-- After a construct the last write is a last write of some arm. -/
theorem Scope.Arms.mem_reaching_merge {n n' : Nat} {arms : List Scope} (h : Arms sc n arms n')
    (hne : arms ≠ []) (hsc : sc.Numbered n) {d : Option WriteEvent} :
    d ∈ (sc.merge arms).reaching x ↔ ∃ arm ∈ arms, d ∈ arm.reaching x := by
  have hun : ((sc.merge arms).trail x).unwritten ↔ ∃ arm ∈ arms, (arm.trail x).unwritten := by
    rw [trail_merge sc hne x]
    simp [Trail.merge]
  constructor
  · rintro (⟨w, hw, rfl⟩ | ⟨hu, rfl⟩)
    · obtain ⟨arm, harm, hw⟩ := (h.mem_live_merge hne hsc).mp hw
      exact ⟨arm, harm, .inl ⟨w, hw, rfl⟩⟩
    · obtain ⟨arm, harm, hu⟩ := hun.mp hu
      exact ⟨arm, harm, .inr ⟨hu, rfl⟩⟩
  · rintro ⟨arm, harm, ⟨w, hw, rfl⟩ | ⟨hu, rfl⟩⟩
    · exact .inl ⟨w, (h.mem_live_merge hne hsc).mpr ⟨arm, harm, hw⟩, rfl⟩
    · exact .inr ⟨hun.mpr ⟨arm, harm, hu⟩, rfl⟩

def Route.Leads (R : Route) (l l' : Local) : Prop :=
  l'.next = l.next + R.sites ∧
    ∀ x, l'.scope.reaching x = reachThrough (R.paths l.next) x (l.scope.reaching x)

namespace Route.Leads

variable {R S : Route} {l m l' : Local}

theorem of_quiet (h : l.Quiet l') : skip.Leads l l' :=
  ⟨h.next, fun x => (Scope.reaching_congr (h.trail x)).trans (reachThrough_one x _).symm⟩

theorem seq (h : R.Leads l m) (h' : S.Leads m l') : (R.seq S).Leads l l' := by
  refine ⟨?_, fun x => ?_⟩
  · rw [h'.1, h.1]
    exact Nat.add_assoc _ _ _
  · rw [h'.2, h.2, h.1]
    exact (reachThrough_mul _ _ x _).symm

/-- Routes with the same places and the same last writes are as good as each other. -/
theorem congr (h : R.Leads l l') (hsites : S.sites = R.sites)
    (hreach : ∀ n x D, reachThrough (S.paths n) x D = reachThrough (R.paths n) x D) :
    S.Leads l l' :=
  ⟨by rw [hsites, h.1], fun x => by rw [hreach, h.2]⟩

theorem seq_skip (h : (R.seq skip).Leads l l') : R.Leads l l' := by
  refine h.congr rfl fun n x D => ?_
  rw [show (R.seq skip).paths n = R.paths n * 1 from rfl, mul_one]

theorem skip_seq (h : (skip.seq R).Leads l l') : R.Leads l l' := by
  refine h.congr (Nat.zero_add _).symm fun n x D => ?_
  rw [show (skip.seq R).paths n = 1 * R.paths n from rfl, one_mul]

theorem between_quiet {l₁ l₂ : Local} (h : l.Quiet l₁) (hR : R.Leads l₁ l₂) (h' : l₂.Quiet l') :
    R.Leads l l' :=
  (((of_quiet h).seq (hR.seq (of_quiet h')).seq_skip)).skip_seq

theorem write {x : String} {r : Range} {type : TypeUnion} {value : Option Value}
    (h : Writes x type value (some r) l l') : (Route.write x r).Leads l l' := by
  subst h
  refine ⟨rfl, fun y => ?_⟩
  have htrail := Scope.trail_updateVar_write l.scope x ⟨l.next, type, value, some r⟩ y
  rw [show (Route.write x r).paths l.next = {[⟨x, l.next, some r⟩]} from rfl,
    reachThrough_write _ _ _ (l.scope.reaching_nonempty y)]
  by_cases hy : x = y
  · subst hy
    ext d
    simp [Scope.reaching, Trail.reaching, htrail, Trail.write]
  · rw [if_neg fun he => hy he.symm] at htrail
    rw [if_neg hy]
    exact Scope.reaching_congr htrail

/-- The last writes of all arms together are those of the alternative. -/
theorem among {sc : Scope} {Rs : List Route} {n n' : Nat} {ρ ρ' : State} {arms : List Scope}
    (h : ArmsMove sc (Rs.map Leads) n ρ arms n' ρ') (hne : arms ≠ []) :
    n' = n + (Route.among Rs).sites ∧ ∀ x d,
      d ∈ reachThrough ((Route.among Rs).paths n) x (sc.reaching x) ↔ ∃ arm ∈ arms, d ∈ arm.reaching x := by
  induction Rs generalizing n ρ arms with
  | nil =>
    cases h
    exact absurd rfl hne
  | cons R Rs ih =>
    cases h with
    | @cons _ _ _ _ _ _ arm m arms htrail hc hE hrest =>
      have hreach : ∀ x, m.scope.reaching x = reachThrough (R.paths n) x (sc.reaching x) := fun x =>
        (hE.2 x).trans (congrArg _ (Scope.reaching_congr (htrail x)))
      have hnext : m.next = n + R.sites := hE.1
      cases Rs with
      | nil =>
        cases hrest
        refine ⟨hnext, fun x d => ?_⟩
        rw [show Route.among [R] = R from rfl, ← hreach x]
        simp
      | cons S Rs =>
        have hne' : arms ≠ [] := by
          cases hrest
          simp
        obtain ⟨hn, hmem⟩ := ih hrest hne'
        refine ⟨?_, fun x d => ?_⟩
        · rw [hn, hnext]
          exact Nat.add_assoc _ _ _
        · rw [show (Route.among (R :: S :: Rs)).paths n =
              R.paths n + (Route.among (S :: Rs)).paths (n + R.sites) from rfl,
            reachThrough_add, Set.mem_union, ← hnext, hmem, ← hreach x]
          simp

theorem of_merges (Rs : List Route) (hnum : l.scope.Numbered l.next) (h : Merges (Rs.map Leads) l l') :
    (Route.among Rs).Leads l l' := by
  obtain ⟨ρ, arms, -, hne, harms, hscope⟩ := h
  obtain ⟨hn, hmem⟩ := among harms hne
  refine ⟨hn, fun x => ?_⟩
  ext d
  rw [hmem, hscope]
  exact harms.toArms.mem_reaching_merge hne hnum

theorem of_detour (hnum : l.scope.Numbered l.next) (h : Merges [R.Leads, Local.Quiet] l l') :
    (R.alt .skip).Leads l l' :=
  of_merges [R, .skip] hnum
    (h.mono (.cons (fun _ _ hR => hR) (.cons (fun _ _ hq => .of_quiet hq) .nil)))

end Route.Leads

namespace Step

/-- Something that makes no write may come before what does. -/
theorem Does.after {α β : Type} {R : Route} {m : Step α} {f : α → Step β} (hm : m.Quiet)
    (hf : ∀ a, (f a).Does R.Leads) : (m >>= f).Does R.Leads :=
  (hm.does.bind hf).mono fun _ _ _ _ ⟨_, _, _, hq, h⟩ => ((Route.Leads.of_quiet hq).seq h).skip_seq

def Follows (m : Step Bool) (R : Route) : Prop := m.Moves R.Leads

namespace Follows

variable {a b : Step Bool} {R S : Route} {α : Type}
variable {m : Step Unit}

theorem congr (h : a.Follows R) (hsites : S.sites = R.sites)
    (hreach : ∀ n x D, reachThrough (S.paths n) x D = reachThrough (R.paths n) x D) : a.Follows S :=
  Moves.mono h fun _ _ _ _ hl => hl.congr hsites hreach

theorem seq_skip (h : a.Follows (R.seq .skip)) : a.Follows R :=
  Moves.mono h fun _ _ _ _ hl => hl.seq_skip

theorem skip_seq (h : a.Follows (Route.skip.seq R)) : a.Follows R :=
  Moves.mono h fun _ _ _ _ hl => hl.skip_seq

theorem continue_ : (Pure.pure true : Step Bool).Follows .skip :=
  Moves.continue_.mono fun _ _ _ _ h => .of_quiet h

theorem andThen (ha : a.Follows R) (hb : b.Follows S) : (Step.andThen a b).Follows (R.seq S) :=
  (Moves.andThen ha hb).mono fun _ _ _ _ ⟨_, _, _, h, h'⟩ => h.seq h'

theorem guarded {r : Range} {fallback : Bool} (ha : a.Follows R) :
    (Step.guarded r fallback a).Follows R :=
  Acts.guarded ha

theorem thenContinue (hm : m.Does R.Leads) : (Step.thenContinue m).Follows R :=
  Moves.thenContinue hm

theorem ofQuiet (hm : m.Quiet) : (Step.thenContinue m).Follows .skip :=
  thenContinue (hm.does.mono fun _ _ _ _ h => .of_quiet h)

theorem after {m : Step α} {f : α → Step Bool} (hm : m.Quiet) (hf : ∀ x, (f x).Follows R) :
    (m >>= f).Follows R :=
  (Moves.after hm.does hf).mono fun _ _ _ _ ⟨_, _, _, h, h'⟩ => ((Route.Leads.of_quiet h).seq h').skip_seq

theorem before (ha : a.Follows R) (hm : m.Quiet) : (Step.andThen a (Step.thenContinue m)).Follows R :=
  (Moves.andThen ha (ofQuiet hm)).mono fun _ _ _ _ ⟨_, _, _, h, h'⟩ => (h.seq h').seq_skip

theorem inLoop (ha : a.Follows R) : (Step.inLoop a).Follows R :=
  (Moves.inLoop ha).mono fun _ _ _ _ ⟨_, _, _, h, _, _, _, hR, h'⟩ => .between_quiet h hR h'

theorem detour {makeBranch : Step Handle} (hm : MakesBranch makeBranch) (ha : a.Follows R)
    (side : BranchSide) : (Step.detour makeBranch side a).Follows (R.alt .skip) :=
  (Moves.detour hm ha side).mono fun _ _ hnum _ h => Route.Leads.of_detour hnum h

theorem choice (c : Expr) (ha : a.Follows R) (hb : b.Follows S) :
    (Step.choice c a b).Follows (R.alt S) :=
  (Moves.choice c ha hb).mono fun _ _ hnum _ h => .of_merges [R, S] hnum h

theorem switchArms {ms : List (Step Bool)} {Rs : List Route} (hms : List.Forall₂ Follows ms Rs)
    {hasDefault : Bool} (hsome : hasDefault → Rs ≠ []) :
    (PhpFlow.switchArms hasDefault ms).Follows
      (.among (Rs ++ if hasDefault then [] else [.skip])) := by
  have hmoves : List.Forall₂ Moves ms (Rs.map Route.Leads) := List.forall₂_map_right_iff.mpr hms
  refine (Moves.switchArms hmoves fun hd hnil => hsome hd (List.map_eq_nil_iff.mp hnil)).mono ?_
  intro l l' hnum _ h
  refine .of_merges _ hnum ?_
  rw [List.map_append]
  refine h.mono (List.rel_append (List.forall₂_same.mpr fun _ _ _ _ hE => hE) ?_)
  cases hasDefault with
  | true => exact .nil
  | false => exact .cons (fun _ _ hq => .of_quiet hq) .nil

end Follows

end Step

end PhpFlow
