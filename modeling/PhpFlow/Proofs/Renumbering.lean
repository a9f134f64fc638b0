import Mathlib.Data.List.Forall2
import Mathlib.GroupTheory.GroupAction.MultipleTransitivity
import PhpFlow.Proofs.Trail

/-!
# Other numbers for the same writes

The number of a write says which write it is and nothing else. Two analyses that make the same writes but
number them differently know the same about every variable: merging, writing and reading commute with an
exchange of the numbers, and types and values do not depend on them.
-/
namespace PhpFlow

open List

def Write.renumber (ρ : Nat → Nat) (w : Write) : Write := { w with id := ρ w.id }

namespace Variable

variable {ρ : Nat → Nat}

def renumber (ρ : Nat → Nat) (v : Variable) : Variable :=
  { v with history := v.history.map (·.renumber ρ), live := v.live.map (·.renumber ρ) }

theorem map_type_renumber (ws : List Write) :
    (ws.map (·.renumber ρ)).map (·.type) = ws.map (·.type) := by
  simp [Write.renumber]

theorem flowType_renumber (v : Variable) : (v.renumber ρ).flowType = v.flowType := by
  simp only [flowType, type, inferredType, renumber, map_type_renumber, isEmpty_map]

theorem flowValue_renumber (v : Variable) : (v.renumber ρ).flowValue = v.flowValue := by
  have hvalues : (v.live.map (·.renumber ρ)).map (·.value) = v.live.map (·.value) := by
    simp [Write.renumber]
  simp only [flowValue, renumber, hvalues]

theorem renumber_renumber (ρ σ : Nat → Nat) (v : Variable) :
    (v.renumber ρ).renumber σ = v.renumber (σ ∘ ρ) := by
  simp [renumber, Write.renumber, Function.comp_def]

theorem renumber_write (v : Variable) (w : Write) :
    (v.write w).renumber ρ = (v.renumber ρ).write (w.renumber ρ) := by
  simp [write, renumber]

section Joining

variable (hρ : ρ.Injective)
include hρ

theorem knows_renumber (ws : List Write) (w : Write) :
    knows (ws.map (·.renumber ρ)) (w.renumber ρ) = knows ws w := by
  simp [knows, Write.renumber, any_map, Function.comp_def, hρ.eq_iff]

theorem distinct_renumber (ws : List Write) :
    distinct (ws.map (·.renumber ρ)) = (distinct ws).map (·.renumber ρ) := by
  have hfold (acc : List Write) :
      (ws.map (·.renumber ρ)).foldl (fun acc w => if knows acc w then acc else acc ++ [w])
          (acc.map (·.renumber ρ)) =
        (ws.foldl (fun acc w => if knows acc w then acc else acc ++ [w]) acc).map (·.renumber ρ) := by
    induction ws generalizing acc with
    | nil => rfl
    | cons w ws ih =>
      rw [map_cons, foldl_cons, foldl_cons, knows_renumber hρ]
      split
      · exact ih acc
      · rw [← ih, map_append, map_singleton]
  exact hfold []

theorem missingFrom_renumber (history ws : List Write) :
    missingFrom (history.map (·.renumber ρ)) (ws.map (·.renumber ρ)) =
      (missingFrom history ws).map (·.renumber ρ) := by
  simp only [missingFrom, distinct_renumber hρ, filter_map, Function.comp_def, knows_renumber hρ]

theorem renumber_mergeCopies (v : Variable) (copies : List Variable) (absent : Bool) :
    (v.mergeCopies copies absent).renumber ρ =
      (v.renumber ρ).mergeCopies (copies.map (renumber ρ)) absent := by
  have hlive : distinct ((copies.map (renumber ρ)).flatMap (·.live)) =
      (distinct (copies.flatMap (·.live))).map (·.renumber ρ) := by
    rw [← distinct_renumber hρ, map_flatMap, flatMap_map]
    rfl
  have hadded : (v.renumber ρ).addedBy (copies.map (renumber ρ)) = (v.addedBy copies).map (·.renumber ρ) := by
    rw [addedBy, addedBy, hlive, ← missingFrom_renumber hρ, map_append, map_flatMap, flatMap_map]
    simp [renumber, map_drop]
  simp only [mergeCopies, hlive, hadded]
  simp [renumber, Function.comp_def, flatMap_map, findSome?_map]

end Joining

end Variable

namespace Scope

variable {ρ : Nat → Nat} {sc sc' : Scope} {arms arms' : List Scope}

def Renumbered (ρ : Nat → Nat) (sc sc' : Scope) : Prop := sc'.vars = sc.vars.map (Variable.renumber ρ)

theorem Renumbered.var? (h : sc.Renumbered ρ sc') (x : String) :
    sc'.var? x = (sc.var? x).map (Variable.renumber ρ) := by
  have hvars : sc'.vars = sc.vars.map (Variable.renumber ρ) := h
  simp only [Scope.var?, hvars, find?_map, Function.comp_def]
  rfl

theorem Renumbered.flowType (h : sc.Renumbered ρ sc') (x : String) :
    (sc'.var? x).bind Variable.flowType = (sc.var? x).bind Variable.flowType := by
  rw [h.var?]
  cases sc.var? x with
  | none => rfl
  | some v => exact v.flowType_renumber

theorem Renumbered.flowValue (h : sc.Renumbered ρ sc') (x : String) :
    (sc'.var? x).bind Variable.flowValue = (sc.var? x).bind Variable.flowValue := by
  rw [h.var?]
  cases sc.var? x with
  | none => rfl
  | some v => exact v.flowValue_renumber

theorem Renumbered.updateVar (h : sc.Renumbered ρ sc') {f g : Variable → Variable}
    (hfg : ∀ v, (f v).renumber ρ = g (v.renumber ρ)) (name : String) :
    (sc.updateVar name f).Renumbered ρ (sc'.updateVar name g) := by
  have hvars (vs : List Variable) : update g name (vs.map (Variable.renumber ρ)) =
      (update f name vs).map (Variable.renumber ρ) := by
    induction vs with
    | nil => exact congrArg (fun v => [v]) (hfg { name }).symm
    | cons v vs ih =>
      by_cases hv : v.name = name
      · have hv' : (v.renumber ρ).name = name := hv
        simp [update, hv, hv', hfg]
      · have hv' : (v.renumber ρ).name ≠ name := hv
        simp [update, hv, hv', ih]
  exact (congrArg (update g name) h).trans (hvars sc.vars)

theorem Renumbered.mergeVar (hρ : ρ.Injective) (h : sc.Renumbered ρ sc')
    (harms : List.Forall₂ (Renumbered ρ) arms arms') (x : String) :
    (sc.mergeVar arms x).renumber ρ = sc'.mergeVar arms' x := by
  have hcopies : copies arms' x = (copies arms x).map (Variable.renumber ρ) ∧
      anyLacks arms' x = anyLacks arms x := by
    induction harms with
    | nil => exact ⟨rfl, rfl⟩
    | @cons arm _ _ _ harm _ ih => cases hv : arm.var? x <;> simp_all [copies, anyLacks, harm.var?]
  have hstart : sc'.mergeStart x (copies arms' x) = (sc.mergeStart x (copies arms x)).renumber ρ := by
    rw [mergeStart, mergeStart, h.var?, hcopies.1]
    cases sc.var? x with
    | some v => rfl
    | none => cases copies arms x <;> rfl
  rw [mergeVar_eq, mergeVar_eq, Variable.renumber_mergeCopies hρ, hstart, hcopies.1, hcopies.2]

theorem Renumbered.merge (hρ : ρ.Injective) (h : sc.Renumbered ρ sc')
    (harms : List.Forall₂ (Renumbered ρ) arms arms') : (sc.merge arms).Renumbered ρ (sc'.merge arms') := by
  have hnames (s s' : Scope) (hs : s.Renumbered ρ s') : s'.vars.map (·.name) = s.vars.map (·.name) := by
    have hvars : s'.vars = s.vars.map (Variable.renumber ρ) := hs
    rw [hvars, map_map]
    rfl
  have harmNames : (arms'.flatMap fun arm => arm.vars.map (·.name)) =
      arms.flatMap fun arm => arm.vars.map (·.name) := by
    induction harms with
    | nil => rfl
    | cons harm _ ih => rw [flatMap_cons, flatMap_cons, hnames _ _ harm, ih]
  have hvars : (sc'.merge arms').vars = (sc.merge arms).vars.map (Variable.renumber ρ) := by
    simp only [Scope.merge, hnames _ _ h, harmNames, map_map]
    exact map_congr_left fun x _ => (h.mergeVar hρ harms x).symm
  exact hvars

end Scope

section Numbers

def Variable.NumbersIn (p : Nat → Prop) (v : Variable) : Prop :=
  (∀ w ∈ v.history, p w.id) ∧ ∀ w ∈ v.live, p w.id

def Scope.NumbersIn (p : Nat → Prop) (sc : Scope) : Prop := ∀ v ∈ sc.vars, v.NumbersIn p

/-- The change leaves the writes of a variable alone and does not look at them. -/
def Variable.Unconcerned (f : Variable → Variable) : Prop :=
  ∀ v h l, f { v with history := h, live := l } = { f v with history := h, live := l }

variable {p : Nat → Prop} {sc : Scope}
variable {f : Variable → Variable}

theorem Variable.Unconcerned.history (hf : Unconcerned f) (v : Variable) : (f v).history = v.history := by
  have h := congrArg Variable.history (hf v v.history v.live)
  exact h

theorem Variable.Unconcerned.live (hf : Unconcerned f) (v : Variable) : (f v).live = v.live := by
  have h := congrArg Variable.live (hf v v.history v.live)
  exact h

theorem Variable.Unconcerned.renumber (hf : Unconcerned f) (ρ : Nat → Nat) (v : Variable) :
    (f v).renumber ρ = f (v.renumber ρ) := by
  rw [Variable.renumber, hf.history, hf.live]
  exact (hf v _ _).symm

theorem Variable.NumbersIn.write {v : Variable} (hv : v.NumbersIn p) {w : Write} (hw : p w.id) :
    (v.write w).NumbersIn p := by
  constructor
  · exact forall_mem_append.mpr ⟨hv.1, by simpa using hw⟩
  · simpa [Variable.write] using hw

theorem Variable.renumber_congr {ρ ρ' : Nat → Nat} (h : ∀ i, p i → ρ' i = ρ i) {v : Variable}
    (hv : v.NumbersIn p) : v.renumber ρ' = v.renumber ρ := by
  have hwrites (ws : List Write) (hws : ∀ w ∈ ws, p w.id) :
      ws.map (·.renumber ρ') = ws.map (·.renumber ρ) :=
    map_congr_left fun w hw => by simp only [Write.renumber, h w.id (hws w hw)]
  simp only [Variable.renumber, hwrites v.history hv.1, hwrites v.live hv.2]

namespace Scope

theorem NumbersIn.mono {q : Nat → Prop} (h : sc.NumbersIn p) (hpq : ∀ i, p i → q i) : sc.NumbersIn q :=
  fun v hv => ⟨fun w hw => hpq _ ((h v hv).1 w hw), fun w hw => hpq _ ((h v hv).2 w hw)⟩

theorem NumbersIn.updateVar (h : sc.NumbersIn p) {f : Variable → Variable}
    (hf : ∀ v, v.NumbersIn p → (f v).NumbersIn p) (name : String) : (sc.updateVar name f).NumbersIn p := by
  have hvars (vs : List Variable) (hvs : ∀ v ∈ vs, v.NumbersIn p) : ∀ v ∈ update f name vs, v.NumbersIn p := by
    induction vs with
    | nil => simpa [update] using hf { name } ⟨by simp, by simp⟩
    | cons v vs ih =>
      rw [forall_mem_cons] at hvs
      rw [update]
      split
      · exact forall_mem_cons.mpr ⟨hf v hvs.1, hvs.2⟩
      · exact forall_mem_cons.mpr ⟨hvs.1, ih hvs.2⟩
  exact hvars sc.vars h

/-- Merging brings no other writes than those of the target and of the arms. -/
theorem NumbersIn.merge {arms : List Scope} (h : sc.NumbersIn p) (harms : ∀ arm ∈ arms, arm.NumbersIn p) :
    (sc.merge arms).NumbersIn p := by
  intro merged hmerged
  obtain ⟨x, -, rfl⟩ := mem_map.mp hmerged
  have hcopies : ∀ v ∈ copies arms x, v.NumbersIn p := by
    intro v hv
    obtain ⟨arm, harm, hx⟩ := mem_copies.mp hv
    exact harms arm harm v (mem_of_find?_eq_some hx)
  have hlive : ∀ w ∈ Variable.distinct ((copies arms x).flatMap (·.live)), p w.id := by
    intro w hw
    obtain ⟨v, hv, hw⟩ := mem_flatMap.mp (Variable.mem_of_mem_distinct hw)
    exact (hcopies v hv).2 w hw
  have hstart : ∀ w ∈ (sc.mergeStart x (copies arms x)).history, p w.id := by
    rw [mergeStart]
    cases hv : sc.var? x with
    | some v => exact (h v (mem_of_find?_eq_some hv)).1
    | none => simp
  rw [mergeVar_eq]
  refine ⟨forall_mem_append.mpr ⟨hstart, fun w hw => ?_⟩, hlive⟩
  rcases mem_append.mp (Variable.mem_of_mem_missingFrom hw) with hw | hw
  · obtain ⟨v, hv, hw⟩ := mem_flatMap.mp hw
    exact (hcopies v hv).1 w (mem_of_mem_drop hw)
  · exact hlive w hw

end Scope

end Numbers

/-- Numbers that have been given keep what they correspond to when the other analysis has gone on to `m'`. -/
theorem exists_injective_from {f : Nat → Nat} (hf : f.Injective) {n m m' : Nat} (hshift : ∀ k, f (n + k) = m + k)
    (hm : m ≤ m') : ∃ g : Nat → Nat, g.Injective ∧ (∀ k, g (n + k) = m' + k) ∧ ∀ i < n, g i = f i := by
  -- The numbers below `n` correspond to numbers below `m`.
  have hlow (i k : Nat) (hi : i < n) : f i ≠ m + k := by
    rw [← hshift]
    exact hf.ne (by omega)
  refine ⟨fun i => if i < n then f i else m' + (i - n), ?_, fun k => by simp, fun i hi => if_pos hi⟩
  intro i j hij
  have hi := hlow i (m' - m + (j - n))
  have hj := hlow j (m' - m + (i - n))
  dsimp only at hij
  split at hij <;> split at hij
  · exact hf hij
  all_goals omega

/-- The first `n` numbers can be exchanged for any others. -/
theorem exists_perm_of_injective {f : Nat → Nat} (hf : f.Injective) (n : Nat) :
    ∃ ρ : Equiv.Perm Nat, ∀ i < n, ρ i = f i := by
  have := Equiv.Perm.isMultiplyPretransitive Nat n
  obtain ⟨ρ, hρ⟩ := MulAction.exists_smul_eq (Equiv.Perm Nat) (Fin.valEmbedding (n := n))
    (Fin.valEmbedding.trans ⟨f, hf⟩)
  exact ⟨ρ, fun i hi => DFunLike.congr_fun hρ (⟨i, hi⟩ : Fin n)⟩

namespace Scope

variable {sc sc₁ sc₂ : Scope} {f g : Nat → Nat} {n : Nat}

theorem Renumbered.congr (h : sc.Renumbered f sc₁) (hfg : ∀ i < n, g i = f i) (hn : sc.NumbersIn (· < n)) :
    sc.Renumbered g sc₁ := by
  have hvars : sc₁.vars = sc.vars.map (Variable.renumber f) := h
  exact hvars.trans (map_congr_left fun v hv => (Variable.renumber_congr hfg (hn v hv)).symm)

/-- Two scopes that both correspond to a third one are the same but for the numbers. -/
theorem Renumbered.meet (h₁ : sc.Renumbered f sc₁) (h₂ : sc.Renumbered g sc₂) (hf : f.Injective)
    (hg : g.Injective) (hn : sc.NumbersIn (· < n)) : ∃ ρ : Equiv.Perm Nat, sc₁.Renumbered ρ sc₂ := by
  obtain ⟨σ, hσ⟩ := exists_perm_of_injective hf n
  obtain ⟨τ, hτ⟩ := exists_perm_of_injective hg n
  have hvars₁ : sc₁.vars = sc.vars.map (Variable.renumber σ) := h₁.congr hσ hn
  have hvars₂ : sc₂.vars = sc.vars.map (Variable.renumber τ) := h₂.congr hτ hn
  refine ⟨σ.symm.trans τ, ?_⟩
  change sc₂.vars = _
  rw [hvars₁, hvars₂, map_map]
  refine map_congr_left fun v _ => (Eq.trans (v.renumber_renumber σ (σ.symm.trans τ)) ?_).symm
  congr 1
  funext i
  simp

end Scope

end PhpFlow
