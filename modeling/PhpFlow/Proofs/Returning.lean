import PhpFlow.Proofs.Arms
import PhpFlow.Proofs.Constants
import PhpFlow.Proofs.Coverage
import PhpFlow.Proofs.Finishing
import PhpFlow.Proofs.Frames
import PhpFlow.Proofs.Membership
import PhpFlow.Proofs.Naming

/-!
# What a function returns

The type of what a function returns is put together from its return statements, in the order in which they
stand in its code, and from nothing else: the functions defined in it keep their returns to themselves.
-/
namespace PhpFlow

open List

open Step (Acts Armed ArmsRun Outcome)

section Records

variable {R R' : Option Expr → TypeUnion × Option Value → Prop} {es es' : List (Option Expr)} {s t u : State}

/-- To what the current function has returned something is added for each of `es`, as `R` says. The functions
around it have returned what they had, and no function is lost from the table. -/
structure State.Records (R : Option Expr → TypeUnion × Option Value → Prop) (es : List (Option Expr))
    (s t : State) : Prop where
  ledger : ∃ before added others, s.ledger = before :: others ∧ t.ledger = (before ++ added) :: others ∧
    Forall₂ R es added
  functions : s.symbols.functionNames ⊆ t.symbols.functionNames

/-- Nothing has been returned, and no function is lost from the table. -/
def State.Unlisted (s t : State) : Prop :=
  t.ledger = s.ledger ∧ s.symbols.functionNames ⊆ t.symbols.functionNames

instance : Nominal State.Unlisted where
  trans h h' := ⟨h'.1.trans h.1, fun _ hn => h'.2 (h.2 hn)⟩
  aside _ hsymbols hledger := ⟨hledger, fun _ hn => hsymbols ▸ hn⟩

theorem State.exists_ledger_eq (s : State) : ∃ others, s.ledger = s.currentFrame.returns :: others := by
  cases hf : s.frames <;> simp [State.ledger, State.currentFrame, hf]

namespace State.Records

theorem of_unlisted (h : s.Unlisted t) : s.Records R [] t := by
  obtain ⟨others, hs⟩ := s.exists_ledger_eq
  refine ⟨⟨_, [], others, hs, ?_, .nil⟩, h.2⟩
  rw [h.1, hs, append_nil]

theorem aside (hsymbols : t.symbols = s.symbols := by rfl) (hledger : t.ledger = s.ledger := by rfl) :
    s.Records R [] t := of_unlisted ⟨hledger, fun _ => hsymbols ▸ id⟩

theorem refl (s : State) : s.Records R [] s := .aside

theorem append (h : s.Records R es t) (h' : t.Records R es' u) : s.Records R (es ++ es') u := by
  obtain ⟨⟨before, added, others, hs, ht, hes⟩, hfunctions⟩ := h
  obtain ⟨⟨_, more, _, ht', hu, hes'⟩, hfunctions'⟩ := h'
  obtain ⟨rfl, rfl⟩ := List.cons.inj (ht.symm.trans ht')
  refine ⟨⟨before, added ++ more, others, hs, ?_, rel_append hes hes'⟩, fun _ hn => hfunctions' (hfunctions hn)⟩
  rw [hu, append_assoc]

theorem unlisted (h : s.Records R es t) (h' : t.Unlisted u) : s.Records R es u := by
  have hboth := h.append (of_unlisted h')
  rwa [append_nil] at hboth

theorem imp (h : s.Records R es t) (hR : ∀ e r, R e r → R' e r) : s.Records R' es t := by
  obtain ⟨⟨before, added, others, hs, ht, hes⟩, hfunctions⟩ := h
  exact ⟨⟨before, added, others, hs, ht, hes.imp fun _ _ => hR _ _⟩, hfunctions⟩

theorem added {e : Option Expr} {r : TypeUnion × Option Value} (h : R e r) :
    s.Records R [e] (s.updateFrame fun f => { f with returns := f.returns ++ [r] }) := by
  refine ⟨?_, ?_⟩
  · cases hf : s.frames <;> simp [State.updateFrame, State.ledger, hf, h]
  · cases hf : s.frames <;> simp [State.updateFrame, hf]

/-- What a function has returned that was entered with nothing returned yet. -/
theorem returns (h : s.Records R es t) (hs : s.currentFrame.returns = []) :
    Forall₂ R es t.currentFrame.returns := by
  obtain ⟨⟨before, added, others, hbefore, hafter, hes⟩, -⟩ := h
  obtain ⟨_, hs'⟩ := s.exists_ledger_eq
  obtain ⟨_, ht'⟩ := t.exists_ledger_eq
  obtain ⟨rfl, -⟩ := List.cons.inj (hbefore.symm.trans hs')
  obtain ⟨hadded, -⟩ := List.cons.inj (hafter.symm.trans ht')
  rwa [← hadded, hs, nil_append]

/-- When the function is left, those around it have returned what they had. -/
theorem tail (h : s.Records R es t) {fs : List Frame} {f : Frame} (hs : s.frames = f :: fs) :
    (t.frames.tail ++ [t.fileFrame]).map (·.returns) = (fs ++ [s.fileFrame]).map (·.returns) := by
  obtain ⟨⟨before, added, others, hbefore, hafter, -⟩, -⟩ := h
  simp only [State.ledger, hs, cons_append, map_cons, List.cons.injEq] at hbefore
  cases ht : t.frames with
  | nil => simp [State.ledger, ht, ← hbefore.2] at hafter
  | cons g gs =>
    simp only [State.ledger, ht, cons_append, map_cons, List.cons.injEq] at hafter
    rw [tail_cons, hafter.2, hbefore.2]

end State.Records

/-- No change of what names stand for takes a function out of the table. -/
theorem NameChange.unlisted {g : State → State} (hg : NameChange g) (s : State) : s.Unlisted (g s) := by
  refine ⟨hg.keeps (fun _ _ _ _ => rfl) s, ?_⟩
  cases hg with
  | addFunction | declareFunction => exact SymbolTable.functionNames_addFunction _ _
  | updateFunction => exact (SymbolTable.functionNames_updateFunction _ _ _).symm ▸ List.Subset.refl _
  | addClass =>
    simp only [SymbolTable.addClass]
    split <;> exact fun _ => id
  | _ => exact fun _ => id

/-- Something is added for each of `es`. -/
abbrev State.Lengthens (es : List (Option Expr)) (s t : State) : Prop := s.Records (fun _ _ => True) es t

abbrev Local.Unreturned (l l' : Local) : Prop := l.rest.Lengthens [] l'.rest

instance : Passage Local.Unreturned where
  trans := State.Records.append
  sink h := by
    rw [Local.Unreturned, h.rest]
    exact .aside

section Unreturned

open Local (Unreturned)

theorem definesClosed_unreturned : DefinesClosed fun m => m.Passes Unreturned where
  pure := .pure
  bind := .bind
  get hf := .get hf.rest
  change hg := .modify hg.restOnly fun l => .of_unlisted (hg.unlisted l.rest)
  ensuring hm hg := .ensuring hm hg.restOnly fun l => .of_unlisted (hg.unlisted l.rest)
  inClass _ _ hm := .bind (.get fun _ => rfl) fun _ => .bind (.modify {} fun _ => .aside)
    fun _ => .ensuring hm {} fun _ => .aside

end Unreturned

abbrev Step.Listed (es : List (Option Expr)) : Outcome := fun l ok l' => ok = true ∧ l.rest.Lengthens es l'.rest

/-- The step goes on after it has added `es` to what the current function returns. -/
def Step.Lengthens (m : Step Bool) (es : List (Option Expr)) : Prop := m.Acts (Listed es)

namespace Step.Lengthens

variable {α : Type} {es es' : List (Option Expr)} {a b : Step Bool}

theorem idle (l : Local) : Listed [] l true l := ⟨rfl, .refl _⟩

theorem goesOn : (Pure.pure true : Step Bool).Lengthens [] := by
  refine (Acts.pure true).mono ?_
  rintro l _ _ ⟨rfl, rfl⟩
  exact idle _

theorem after {m : Step α} {f : α → Step Bool} (hm : m.Passes fun l l' => l.rest.Lengthens es l'.rest)
    (hf : ∀ x, (f x).Lengthens es') : (m >>= f).Lengthens (es ++ es') := by
  refine (Acts.bind hm hf).mono ?_
  rintro l ok l' ⟨x, m, hlm, rfl, hml⟩
  exact ⟨rfl, hlm.append hml⟩

theorem next {m : Step α} {f : α → Step Bool} (hm : m.Passes Local.Unreturned)
    (hf : ∀ x, (f x).Lengthens es) : (m >>= f).Lengthens es := after hm hf

theorem andThen (ha : a.Lengthens es) (hb : b.Lengthens es') : (Step.andThen a b).Lengthens (es ++ es') := by
  refine (Acts.andThen ha hb).mono ?_
  rintro l ok l' (⟨h, -⟩ | ⟨m, h, h'⟩)
  · cases h.1
  · exact ⟨h'.1, h.2.append h'.2⟩

theorem inLoop (ha : a.Lengthens es) : (Step.inLoop a).Lengthens es := by
  refine (Acts.inLoop ha).mono ?_
  rintro l ok _ ⟨l₁, ⟨hok, h₁⟩, rfl⟩
  exact ⟨hok, h₁.ledger, h₁.functions⟩

theorem of_armsRun {ess : List (List (Option Expr))} {sc : Scope} {n n' : Nat} {ρ ρ' : State} {ok : Bool}
    {arms : List Scope} (h : ArmsRun sc (ess.map Listed) n ρ ok arms n' ρ') :
    ok = true ∧ ρ.Lengthens ess.flatten ρ' := by
  induction ess generalizing n ρ arms with
  | nil =>
    cases h
    exact ⟨rfl, .refl _⟩
  | cons es ess ih =>
    cases h with
    | stop _ hΦ _ => cases hΦ.1
    | cons _ hΦ hrest =>
      obtain ⟨hok, hlast⟩ := ih hrest
      exact ⟨hok, hΦ.2.append hlast⟩

theorem of_armed (ess : List (List (Option Expr))) (ha : a.Acts (Armed (ess.map Listed))) :
    a.Lengthens ess.flatten := by
  refine ha.mono ?_
  rintro l ok l' ⟨k, arms, hrun, -⟩
  obtain ⟨hok, h⟩ := of_armsRun hrun
  exact ⟨hok, h.ledger, h.functions⟩

theorem detour {makeBranch : Step Handle} (hm : MakesBranch makeBranch) (ha : a.Lengthens es)
    (side : BranchSide) : (Step.detour makeBranch side a).Lengthens es := by
  simpa using of_armed [es, []] (Acts.detour hm ha idle side)

theorem choice (c : Expr) (ha : a.Lengthens es) (hb : b.Lengthens es') :
    (Step.choice c a b).Lengthens (es ++ es') := by
  simpa using of_armed [es, es'] (Acts.choice c ha hb)

theorem switchArms {ess : List (List (Option Expr))} {ms : List (Step Bool)}
    (h : List.Forall₂ (fun es m => m.Lengthens es) ess ms) (hasDefault : Bool) :
    (switchArms hasDefault ms).Lengthens ess.flatten := by
  have harms := Acts.switchArms (List.forall₂_map_right_iff.mpr h.flip) idle hasDefault
  cases hasDefault with
  | true => exact of_armed _ (by simpa using harms)
  | false =>
    have hall := of_armed (ess ++ [[]]) (by simpa using harms)
    rwa [flatten_append, flatten_singleton, append_nil] at hall

theorem addVoid : (Step.thenContinue (addReturn (.prim .void) none)).Lengthens [none] := by
  refine (Acts.bind (Acts.modify (restOnly_addReturn _ _)) fun _ => Acts.pure true).mono ?_
  rintro l _ _ ⟨_, _, rfl, rfl, rfl⟩
  exact ⟨rfl, .added trivial⟩

theorem addReturned (e : Expr) : (do
    let u ← Step.query e.type
    let v ← Step.query e.value
    addReturn (u.getD (.prim .mixed)) v
    return true : Step Bool).Lengthens [some e] := by
  refine (Acts.bind (Acts.query e.numericFaults_type) fun u =>
    Acts.bind (Acts.query e.numericFaults_value) fun v =>
      Acts.bind (Acts.modify (restOnly_addReturn _ v)) fun _ => Acts.pure true).mono ?_
  rintro l _ _ ⟨u, l₁, ⟨-, h₁⟩, v, l₂, ⟨-, h₂⟩, _, _, rfl, rfl, rfl⟩
  have hl₂ : l.Unreturned l₂ := Passage.trans (Passage.sink h₁) (Passage.sink h₂)
  exact ⟨rfl, hl₂.append (.added trivial)⟩

theorem inNamespace (name : String) {body : Option (Step Bool)} (hnone : body = none → es = [])
    (hbody : ∀ m ∈ body, m.Lengthens es) : (inNamespace name body).Lengthens es := by
  refine definesClosed_unreturned.inNamespace (P := fun m => m.Lengthens es) next ?_ name ?_ hbody
  · intro m g hm hg
    refine (Acts.ensuring hm hg.restOnly).mono ?_
    rintro l ok _ ⟨l', ⟨hok, hl'⟩, rfl⟩
    exact ⟨hok, hl'.unlisted (hg.unlisted l'.rest)⟩
  · intro hbody
    exact hnone hbody ▸ goesOn

end Step.Lengthens

section Functions

variable {f : Function} {body : Step Bool}

end Functions

end Records

end PhpFlow
