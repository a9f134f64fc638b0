import PhpFlow.Proofs.Copies

/-!
# Trails of writes

Of a variable only its writes are looked at here: all of them, the live ones, and whether some path has
none. A variable that a scope does not know has no writes. Seen like this, a scope is a function from
names to trails, a write changes one trail, and merging works name by name.
-/
namespace PhpFlow

open List

/-- The writes to a variable, those that may be the last one, and whether there may be none. -/
structure Trail where
  history : List Write
  live : List Write
  unwritten : Bool

namespace Trail

def empty : Trail := ⟨[], [], true⟩

def write (t : Trail) (w : Write) : Trail := ⟨t.history ++ [w], [w], false⟩

/-- The trail after arms that started with the trail `t`. -/
def merge (t : Trail) (arms : List Trail) : Trail :=
  let live := Variable.distinct (arms.flatMap (·.live))
  ⟨t.history ++ Variable.missingFrom t.history
      (arms.flatMap (fun arm => arm.history.drop t.history.length) ++ live),
    live, arms.any (·.unwritten)⟩

end Trail

def Variable.trail (v : Variable) : Trail := ⟨v.history, v.live, v.isPartial || v.live.isEmpty⟩

namespace Scope

variable {arms : List Scope}

def trail (s : Scope) (name : String) : Trail := ((s.var? name).map Variable.trail).getD .empty

theorem find?_update (f : Variable → Variable) (hf : ∀ v, (f v).name = v.name) (name x : String)
    (vs : List Variable) :
    (update f name vs).find? (fun v => v.name = x) =
      if x = name then some (f ((vs.find? fun v => v.name = name).getD { name }))
      else vs.find? fun v => v.name = x := by
  induction vs with
  | nil =>
    by_cases hx : x = name
    · simp [update, hf, hx]
    · have hne : ¬ name = x := fun he => hx he.symm
      simp [update, hf, hx, hne]
  | cons v vs ih =>
    by_cases hv : v.name = name
    · by_cases hx : x = name
      · simp [update, hv, hx, hf]
      · have hne : ¬ name = x := fun he => hx he.symm
        simp [update, hv, hx, hf, hne]
    · by_cases hvx : v.name = x
      · have hx : ¬ x = name := fun he => hv (hvx.trans he)
        simp [update, hvx, hx]
      · simp [update, hv, hvx, ih]

theorem var?_updateVar (s : Scope) {f : Variable → Variable} (hf : ∀ v, (f v).name = v.name)
    (name x : String) :
    (s.updateVar name f).var? x =
      if x = name then some (f ((s.var? name).getD { name })) else s.var? x :=
  find?_update f hf name x s.vars

theorem name_of_var? {s : Scope} {x : String} {v : Variable} (h : s.var? x = some v) : v.name = x := by
  simpa using find?_some h

/-- A change that leaves the writes of every variable alone. -/
theorem trail_updateVar_keep (s : Scope) {f : Variable → Variable} (hf : ∀ v, (f v).name = v.name)
    (ht : ∀ v, (f v).trail = v.trail) (name x : String) : (s.updateVar name f).trail x = s.trail x := by
  unfold trail
  rw [var?_updateVar s hf]
  by_cases hx : x = name
  · subst hx
    cases hv : s.var? x with
    | none => simpa [Variable.trail, Trail.empty] using ht { name := x }
    | some v => simp [ht]
  · simp [hx]

theorem trail_updateVar_write (s : Scope) (name : String) (w : Write) (x : String) :
    (s.updateVar name (·.write w)).trail x =
      if x = name then (s.trail name).write w else s.trail x := by
  unfold trail
  rw [var?_updateVar s (f := (·.write w)) (fun _ => rfl)]
  by_cases hx : x = name
  · subst hx
    cases hv : s.var? x with
    | none => simp [Variable.trail, Variable.write, Trail.write, Trail.empty]
    | some v => simp [Variable.trail, Variable.write, Trail.write]
  · simp [hx]

theorem mem_firstOccurrences (names : List String) (x : String) :
    x ∈ firstOccurrences names ↔ x ∈ names := by
  rw [firstOccurrences_eq]
  exact Firsts.mem_keep_iff fun _ _ _ _ h => h

theorem mergeVar_name (target : Scope) (arms : List Scope) (x : String) :
    (target.mergeVar arms x).name = x := by
  rw [mergeVar_eq]
  change (target.mergeStart x _).name = x
  cases hv : target.var? x with
  | none => simp [mergeStart, hv]
  | some v => simpa [mergeStart, hv] using name_of_var? hv

theorem find?_map_named {g : String → Variable} (hg : ∀ n, (g n).name = n) (x : String)
    (names : List String) :
    (names.map g).find? (fun v => v.name = x) = if x ∈ names then some (g x) else none := by
  induction names with
  | nil => simp
  | cons n ns ih =>
    by_cases hn : n = x
    · simp [hg, hn]
    · have hne : ¬ x = n := fun he => hn he.symm
      simp [hg, hn, hne, ih]

theorem mem_names_iff (s : Scope) (x : String) : x ∈ s.vars.map (·.name) ↔ s.var? x ≠ none := by
  simp only [var?, ne_eq, find?_eq_none, mem_map, not_forall]
  constructor
  · rintro ⟨v, hv, hx⟩
    exact ⟨v, hv, by simp [hx]⟩
  · rintro ⟨v, hv, hx⟩
    exact ⟨v, hv, by simpa using hx⟩

theorem var?_merge (target : Scope) (arms : List Scope) (x : String) :
    (target.merge arms).var? x =
      if target.var? x = none ∧ ∀ arm ∈ arms, arm.var? x = none then none
      else some (target.mergeVar arms x) := by
  have hmem : x ∈ firstOccurrences
      (target.vars.map (·.name) ++ arms.flatMap fun arm => arm.vars.map (·.name)) ↔
      ¬ (target.var? x = none ∧ ∀ arm ∈ arms, arm.var? x = none) := by
    rw [mem_firstOccurrences, mem_append, mem_names_iff, mem_flatMap, not_and_or]
    simp only [mem_names_iff, not_forall, exists_prop, ne_eq]
  rw [show (target.merge arms).var? x = _ from find?_map_named (mergeVar_name target arms) x _]
  by_cases h : target.var? x = none ∧ ∀ arm ∈ arms, arm.var? x = none
  · rw [if_neg (fun hx => hmem.mp hx h), if_pos h]
  · rw [if_pos (hmem.mpr h), if_neg h]

/-- What the copies of a variable say is what all arms say of it, if an empty trail says nothing. -/
theorem flatMap_copies {β : Type} (arms : List Scope) (x : String) (g : Trail → List β) (hg : g .empty = []) :
    (copies arms x).flatMap (fun v => g v.trail) = (arms.map (·.trail x)).flatMap g := by
  induction arms with
  | nil => rfl
  | cons arm arms ih => cases hv : arm.var? x <;> simpa [copies, hv, trail, hg] using ih

/-- Some arm is partial or has nothing live if some arm may leave the variable unwritten. -/
theorem any_unwritten (arms : List Scope) (x : String) :
    ((copies arms x).any (·.isPartial) || (anyLacks arms x || (copies arms x).any (·.live.isEmpty))) =
      (arms.map (·.trail x)).any (·.unwritten) := by
  induction arms with
  | nil => rfl
  | cons arm arms ih =>
    cases hv : arm.var? x with
    | none => simp [anyLacks, hv, trail, Trail.empty]
    | some v =>
      simp only [copies, anyLacks, filterMap_cons, map_cons, any_cons, hv, trail,
        Option.isNone_some, Option.map_some, Option.getD_some, Variable.trail] at ih ⊢
      rw [← ih]
      cases v.isPartial <;> cases v.live.isEmpty <;> simp

/-- If nothing is live after the arms, then nothing was in any of them. -/
theorem any_unwritten_of_live_eq_nil (harms : arms ≠ []) (x : String)
    (h : (arms.map (·.trail x)).flatMap (·.live) = []) : (arms.map (·.trail x)).any (·.unwritten) := by
  obtain ⟨arm, rest, rfl⟩ := exists_cons_of_ne_nil harms
  have hlive : (arm.trail x).live = [] := by
    simp only [map_cons, flatMap_cons, append_eq_nil_iff] at h
    exact h.1
  have harm : (arm.trail x).unwritten = true := by
    cases hv : arm.var? x with
    | none => simp [trail, hv, Trail.empty]
    | some v =>
      have hvl : v.live = [] := by simpa [trail, hv, Variable.trail] using hlive
      simp [trail, hv, Variable.trail, hvl]
  simp [harm]

theorem merge_empty (harms : arms ≠ []) :
    Trail.empty.merge (arms.map fun _ => Trail.empty) = Trail.empty := by
  obtain ⟨arm, rest, rfl⟩ := exists_cons_of_ne_nil harms
  simp [Trail.merge, Trail.empty, List.flatMap, Variable.missingFrom, Variable.distinct]

theorem history_mergeStart (target : Scope) (x : String) (vs : List Variable) :
    (target.mergeStart x vs).history = (target.trail x).history := by
  cases hv : target.var? x <;> simp [mergeStart, trail, hv, Trail.empty, Variable.trail]

theorem trail_mergeVar (target : Scope) (harms : arms ≠ []) (x : String) :
    (target.mergeVar arms x).trail = (target.trail x).merge (arms.map (·.trail x)) := by
  have hlive := flatMap_copies arms x (·.live) rfl
  have hnew := flatMap_copies arms x (fun t => t.history.drop (target.trail x).history.length)
    (by simp [Trail.empty])
  have hpartial := any_unwritten arms x
  simp only [Variable.trail] at hlive hnew
  rw [mergeVar_eq]
  simp only [Variable.trail, Variable.mergeCopies, Variable.addedBy, Trail.merge, history_mergeStart, hlive,
    hnew, hpartial]
  -- Only the last part is left: an empty live set adds nothing to what the arms say.
  cases hl : (Variable.distinct ((arms.map (·.trail x)).flatMap (·.live))).isEmpty with
  | false => simp
  | true =>
    have hnil := Variable.distinct_eq_nil (isEmpty_iff.mp hl)
    simp [any_unwritten_of_live_eq_nil harms x hnil]

theorem trail_merge (target : Scope) (harms : arms ≠ []) (x : String) :
    (target.merge arms).trail x = (target.trail x).merge (arms.map (·.trail x)) := by
  rw [← trail_mergeVar target harms x]
  rw [trail, var?_merge]
  split
  · rename_i h
    -- A variable that nobody knows stays unknown, and merging gives it no writes.
    have hempty : ∀ arm ∈ arms, arm.trail x = .empty := by
      intro arm harm
      simp [trail, h.2 arm harm]
    have hmap : arms.map (·.trail x) = arms.map fun _ => Trail.empty := map_congr_left hempty
    have htarget : target.trail x = .empty := by simp [trail, h.1]
    rw [trail_mergeVar target harms x, hmap, htarget, merge_empty harms]
    rfl
  · rfl

end Scope

end PhpFlow
