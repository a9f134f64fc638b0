import PhpFlow.Proofs.Arms
import PhpFlow.Proofs.Numbering

/-!
# Steps that go on

A step that neither stops nor jumps takes the analysis from one point to the next: names keep their meaning,
histories grow, and the numbers of writes stay in order. On top of that it has some effect. The rules below
say how the effects of the parts of a construct make up that of the whole.
-/
namespace PhpFlow

variable {l l' : Local}

/-- No write has been made, and names mean what they did. -/
structure Local.Quiet (l l' : Local) : Prop where
  names : l'.rest.names = l.rest.names
  next : l'.next = l.next
  trail : ∀ x, l'.scope.trail x = l.scope.trail x

namespace Local.Quiet

theorem refl (l : Local) : l.Quiet l := ⟨rfl, rfl, fun _ => rfl⟩

instance : Passage Local.Quiet where
  trans h h' := ⟨h'.names.trans h.names, h'.next.trans h.next, fun x => (h'.trail x).trans (h.trail x)⟩
  sink h := by
    refine ⟨?_, h.next, fun x => by rw [h.scope]⟩
    rw [h.rest]
    rfl

end Local.Quiet

namespace Step

variable {α β : Type}

abbrev Quiet (m : Step α) : Prop := m.Passes Local.Quiet

namespace Quiet

theorem modify {g : State → State} (hg : RestOnly g) (hnames : ∀ s, (g s).names = s.names) :
    (Step.modify g).Quiet :=
  Passes.modify hg fun l => ⟨hnames l.rest, rfl, fun _ => rfl⟩

theorem updateVar (name : String) {f : Variable → Variable} (hf : ∀ v, (f v).name = v.name)
    (ht : ∀ v, (f v).trail = v.trail) : (Step.updateVar name f).Quiet :=
  Passes.updateVar name f fun l => ⟨rfl, rfl, fun x => Scope.trail_updateVar_keep l.scope hf ht name x⟩

end Quiet

end Step

/-- The analysis has gone on from `l` to `l'`. -/
structure Local.Continues (l l' : Local) : Prop where
  names : l'.rest.names = l.rest.names
  next : l.next ≤ l'.next
  numbered : l'.scope.Numbered l'.next
  grows : l.scope.GrowsTo l.next l'.scope

namespace Local.Continues

theorem of_quiet {l l' : Local} (h : l.Quiet l') (hnum : l.scope.Numbered l.next) : l.Continues l' := by
  refine ⟨h.names, Nat.le_of_eq h.next.symm, ?_, .congr h.trail (.refl l'.scope _)⟩
  rw [h.next]
  exact hnum.congr h.trail

theorem trans {l m l' : Local} (h : l.Continues m) (h' : m.Continues l') : l.Continues l' :=
  ⟨h'.names.trans h.names, Nat.le_trans h.next h'.next, h'.numbered, h.grows.trans h.next h'.grows⟩

end Local.Continues

abbrev Effect := Local → Local → Prop

def Effect.andThen (E F : Effect) : Effect := fun l l' =>
  ∃ m, l.Continues m ∧ m.Continues l' ∧ E l m ∧ F m l'

/-- From a point where the numbers of writes are in order the analysis goes on, with the effect `E`. -/
def Local.Moves (E : Effect) (l l' : Local) : Prop :=
  l.scope.Numbered l.next → l.Continues l' ∧ E l l'

namespace Local.Moves

variable {E F : Effect} {l m l' : Local}

theorem mono (h : l.Moves E l')
    (hEF : l.scope.Numbered l.next → l.Continues l' → E l l' → F l l') : l.Moves F l' := by
  intro hnum
  obtain ⟨hc, hE⟩ := h hnum
  exact ⟨hc, hEF hnum hc hE⟩

theorem of_quiet (h : l.Quiet l') : l.Moves Local.Quiet l' := fun hnum => ⟨.of_quiet h hnum, h⟩

theorem comp (h : l.Moves E m) (h' : m.Moves F l') : l.Moves (Effect.andThen E F) l' := by
  intro hnum
  obtain ⟨hc, hE⟩ := h hnum
  obtain ⟨hc', hF⟩ := h' hc.numbered
  exact ⟨hc.trans hc', m, hc, hc', hE, hF⟩

end Local.Moves

def Writes (name : String) (type : TypeUnion) (value : Option Value) (range : Option Range) : Effect :=
  fun l l' => l' = { l with
    scope := l.scope.updateVar name (·.write ⟨l.next, type, value, range⟩), next := l.next + 1 }

theorem Writes.moves {name : String} {type : TypeUnion} {value : Option Value} {range : Option Range}
    (h : Writes name type value range l l') : l.Moves (Writes name type value range) l' := by
  refine fun hnum => ⟨?_, h⟩
  obtain ⟨hnum', hgrows⟩ := hnum.write name (w := ⟨l.next, type, value, range⟩) rfl
  subst h
  exact ⟨rfl, Nat.le_succ _, hnum', hgrows⟩

/-- Arms that were worked on one after the other, each from a copy of the scope and with its own effect:
`n` and `ρ` are the number of the next write and the rest of the state before, `n'` and `ρ'` after. -/
inductive ArmsMove (sc : Scope) : List Effect → Nat → State → List Scope → Nat → State → Prop
  | nil (n : Nat) (ρ : State) : ArmsMove sc [] n ρ [] n ρ
  | cons {E : Effect} {Es : List Effect} {n n' : Nat} {ρ ρ' : State} {arm : Scope} {m : Local}
      {arms : List Scope} (htrail : ∀ x, arm.trail x = sc.trail x) (hc : Local.Continues ⟨arm, n, ρ⟩ m)
      (hE : E ⟨arm, n, ρ⟩ m) (hrest : ArmsMove sc Es m.next m.rest arms n' ρ') :
      ArmsMove sc (E :: Es) n ρ (m.scope :: arms) n' ρ'

namespace ArmsMove

variable {sc : Scope} {Es : List Effect} {n n' : Nat} {ρ ρ' : State} {arms : List Scope}
variable (h : ArmsMove sc Es n ρ arms n' ρ')

include h

theorem toArms : Scope.Arms sc n arms n' := by
  induction h with
  | nil n => exact .nil n
  | cons htrail hc _ _ ih => exact .cons hc.numbered (hc.grows.congr htrail) hc.next ih

theorem names : ρ'.names = ρ.names := by
  induction h with
  | nil => rfl
  | cons _ hc _ _ ih => exact ih.trans hc.names

theorem mono {Fs : List Effect}
    (hEF : List.Forall₂ (fun E F => ∀ l l', E l l' → F l l') Es Fs) : ArmsMove sc Fs n ρ arms n' ρ' := by
  induction h generalizing Fs with
  | nil n =>
    cases hEF
    exact .nil n _
  | cons htrail hc hE _ ih =>
    cases hEF with
    | cons h₁ hrest => exact .cons htrail hc (h₁ _ _ hE) (ih hrest)

end ArmsMove

/-- The effects take place in the arms of a construct, and the arms are merged. -/
def Merges (Es : List Effect) (l l' : Local) : Prop :=
  ∃ ρ arms, ρ.names = l.rest.names ∧ arms ≠ [] ∧ ArmsMove l.scope Es l.next ρ arms l'.next l'.rest ∧
    l'.scope = l.scope.merge arms

theorem Merges.mono {Es Fs : List Effect} (h : Merges Es l l')
    (hEF : List.Forall₂ (fun E F => ∀ l l', E l l' → F l l') Es Fs) : Merges Fs l l' := by
  obtain ⟨ρ, arms, hnames, hne, harms, hscope⟩ := h
  exact ⟨ρ, arms, hnames, hne, harms.mono hEF, hscope⟩

theorem Merges.moves {Es : List Effect} (h : l.scope.Numbered l.next → Merges Es l l') :
    l.Moves (Merges Es) l' := by
  intro hnum
  obtain ⟨ρ, arms, hnames, hne, harms, hscope⟩ := h hnum
  refine ⟨⟨harms.names.trans hnames, harms.toArms.le, ?_, ?_⟩, ρ, arms, hnames, hne, harms, hscope⟩
  · rw [hscope]
    exact harms.toArms.merge_numbered hne hnum
  · rw [hscope]
    exact harms.toArms.merge_grows hne hnum

namespace Step

variable {α β : Type} {E F : Effect}
variable {m : Step α}

def Does (m : Step α) (E : Effect) : Prop := m.Acts fun l _ l' => l.Moves E l'

abbrev Moved (E : Effect) : Outcome := fun l ok l' => ok = true ∧ l.Moves E l'

/-- The step has the effect `E`, and the analysis goes on after it. -/
def Moves (m : Step Bool) (E : Effect) : Prop := m.Acts (Moved E)

theorem Quiet.does (hm : m.Quiet) : m.Does Local.Quiet :=
  Acts.mono hm fun _ _ _ h => .of_quiet h

theorem does_write (name : String) (type : TypeUnion) (value : Option Value) (range : Option Range) :
    (Step.write name type value range).Does (Writes name type value range) :=
  (Acts.write name type value range).mono fun _ _ _ h => Writes.moves h

theorem Does.bind {f : α → Step β} (hm : m.Does E) (hf : ∀ a, (f a).Does F) :
    (m >>= f).Does (Effect.andThen E F) := by
  refine (Acts.bind hm hf).mono ?_
  rintro l b l' ⟨a, l₁, h, h'⟩
  exact h.comp h'

theorem Does.mono (h : m.Does E) (hEF : ∀ l l', l.scope.Numbered l.next → l.Continues l' → E l l' → F l l') :
    m.Does F :=
  Acts.mono h fun l _ l' hl => hl.mono (hEF l l')

namespace Moves

variable {a b : Step Bool}
variable {ok : Bool} {Es : List Effect}

theorem mono (h : a.Moves E)
    (hEF : ∀ l l', l.scope.Numbered l.next → l.Continues l' → E l l' → F l l') : a.Moves F :=
  Acts.mono h fun l _ l' hl => ⟨hl.1, hl.2.mono (hEF l l')⟩

theorem idle (l : Local) : Moved Local.Quiet l true l := ⟨rfl, .of_quiet (.refl l)⟩

theorem continue_ : (Pure.pure true : Step Bool).Moves Local.Quiet := by
  refine (Acts.pure true).mono ?_
  rintro l b l' ⟨rfl, rfl⟩
  exact idle _

theorem andThen (ha : a.Moves E) (hb : b.Moves F) : (Step.andThen a b).Moves (Effect.andThen E F) := by
  refine (Acts.andThen ha hb).mono ?_
  rintro l ok l' (⟨h, -⟩ | ⟨m, h, h'⟩)
  · cases h.1
  · exact ⟨h'.1, h.2.comp h'.2⟩

theorem thenContinue {m : Step Unit} (hm : m.Does E) : (Step.thenContinue m).Moves E := by
  refine (Acts.bind hm fun _ => Acts.pure true).mono ?_
  rintro l b l' ⟨-, l₁, hl, rfl, rfl⟩
  exact ⟨rfl, hl⟩

theorem after {m : Step α} {f : α → Step Bool} (hm : m.Does E) (hf : ∀ x, (f x).Moves F) :
    (m >>= f).Moves (Effect.andThen E F) := by
  refine (Acts.bind hm hf).mono ?_
  rintro l b l' ⟨x, l₁, hE, rfl, hF⟩
  exact ⟨rfl, hE.comp hF⟩

theorem inLoop (ha : a.Moves E) :
    (Step.inLoop a).Moves (Effect.andThen Local.Quiet (Effect.andThen E Local.Quiet)) := by
  refine (Acts.inLoop ha).mono ?_
  rintro l b l' ⟨l₁, ⟨rfl, hl⟩, rfl⟩
  have henter : l.Quiet { l with rest := enterLoop l.rest } := ⟨rfl, rfl, fun _ => rfl⟩
  have hleave : l₁.Quiet { l₁ with rest := leaveLoop l₁.rest } := ⟨rfl, rfl, fun _ => rfl⟩
  exact ⟨rfl, (Local.Moves.of_quiet henter).comp (hl.comp (.of_quiet hleave))⟩

/-- Arms one after the other, each with its effect. -/
theorem armsMove_of_armsRun {sc : Scope} {n n' : Nat} {ρ ρ' : State} {arms : List Scope}
    (h : ArmsRun sc (Es.map Moved) n ρ ok arms n' ρ') :
    ok = true ∧ arms.length = Es.length ∧ (sc.Numbered n → ArmsMove sc Es n ρ arms n' ρ') := by
  induction Es generalizing n ρ arms with
  | nil =>
    cases h
    exact ⟨rfl, rfl, fun _ => .nil _ _⟩
  | cons E Es ih =>
    cases h with
    | stop _ hΦ _ => cases hΦ.1
    | cons harm hΦ hrest =>
      obtain ⟨hok, hlen, harms⟩ := ih hrest
      refine ⟨hok, congrArg (· + 1) hlen, fun hsc => ?_⟩
      obtain ⟨hc, hE⟩ := hΦ.2 (hsc.congr harm.trail)
      exact .cons harm.trail hc hE (harms (hsc.mono hc.next))

theorem of_armed (Es : List Effect) (ha : a.Acts (Armed (Es.map Moved))) (hsome : Es ≠ []) :
    a.Moves (Merges Es) := by
  refine ha.mono ?_
  rintro l ok ⟨_, n, ρ⟩ ⟨k, arms, hrun, rfl⟩
  obtain ⟨hok, hlen, harms⟩ := armsMove_of_armsRun hrun
  refine ⟨hok, Merges.moves fun hnum => ⟨{ l.rest with sink := k }, arms, rfl, ?_, harms hnum, rfl⟩⟩
  rintro rfl
  exact hsome (List.length_eq_zero_iff.mp hlen.symm)

theorem detour {makeBranch : Step Handle} (hm : MakesBranch makeBranch) (ha : a.Moves E) (side : BranchSide) :
    (Step.detour makeBranch side a).Moves (Merges [E, Local.Quiet]) :=
  of_armed [E, Local.Quiet] (Acts.detour hm ha idle side) (by simp)

theorem choice (c : Expr) (ha : a.Moves E) (hb : b.Moves F) : (Step.choice c a b).Moves (Merges [E, F]) :=
  of_armed [E, F] (Acts.choice c ha hb) (by simp)

theorem switchArms {ms : List (Step Bool)} (hms : List.Forall₂ Moves ms Es) {hasDefault : Bool}
    (hsome : hasDefault → Es ≠ []) :
    (PhpFlow.switchArms hasDefault ms).Moves
      (Merges (Es ++ if hasDefault then [] else [Local.Quiet])) := by
  have harms := Acts.switchArms (List.forall₂_map_right_iff.mpr hms) idle hasDefault
  refine of_armed _ ?_ ?_
  · cases hasDefault <;> simpa using harms
  · cases hasDefault <;> simp_all

end Moves

end Step

end PhpFlow
