import Mathlib.Data.List.Forall2
import PhpFlow.Scope.Arena

/-!
# What the operations of an arena do to its scopes

An arena is seen through `scope?` alone: each operation says which handles it affects, and every other
handle keeps its scope. A scope knows its own handle, and all operations keep that up.
-/
namespace PhpFlow

namespace Arena

variable {a : Arena} {h : Handle} {s : Scope}

/-- Every live scope carries the handle it is found under. -/
def Placed (a : Arena) : Prop := ∀ h s, a.scope? h = some s → s.handle = h

theorem get_of_scope? (hs : a.scope? h = some s) : a.get h = .ok s := by
  simp [get, hs]

theorem scope?_natCast (a : Arena) (i : Nat) : a.scope? (i : Handle) = (a.scopes[i]?).join := by
  simp [scope?]

theorem exists_place (hs : a.scope? h = some s) : ∃ i : Nat, h = i ∧ a.scopes[i]? = some (some s) := by
  by_cases h0 : 0 ≤ h
  · obtain ⟨i, rfl⟩ := Int.eq_ofNat_of_zero_le h0
    rw [scope?_natCast] at hs
    refine ⟨i, rfl, ?_⟩
    cases hi : a.scopes[i]? with
    | none => simp [hi] at hs
    | some o => simpa [hi] using hs
  · simp [scope?, h0] at hs

theorem lt_size_of_scope? (hs : a.scope? h = some s) : h < (a.scopes.size : Nat) := by
  obtain ⟨i, rfl, hi⟩ := exists_place hs
  obtain ⟨hlt, -⟩ := Array.getElem?_eq_some_iff.mp hi
  exact Int.ofNat_lt.mpr hlt

theorem scope?_size (a : Arena) : a.scope? (a.scopes.size : Nat) = none := by
  simp [scope?_natCast]

theorem scope?_add (a : Arena) (parent : Option Handle) (side : BranchSide) (vars : List Variable)
    (h : Handle) :
    (a.add parent side vars).2.scope? h =
      if h = (a.scopes.size : Nat) then some ⟨(a.scopes.size : Nat), parent, side, vars⟩
      else a.scope? h := by
  by_cases h0 : 0 ≤ h
  · obtain ⟨i, rfl⟩ := Int.eq_ofNat_of_zero_le h0
    rw [scope?_natCast, scope?_natCast]
    simp only [add, Array.getElem?_push, Int.natCast_inj]
    split <;> simp
  · have hne : h ≠ (a.scopes.size : Nat) := fun he => h0 (he ▸ Int.natCast_nonneg _)
    simp [scope?, h0, hne]

theorem scope?_set {k : Handle} (hk : a.isLive k) (o : Option Scope) (h : Handle) :
    ({ a with scopes := a.scopes.set! k.toNat o } : Arena).scope? h =
      if h = k then o else a.scope? h := by
  obtain ⟨s, hs⟩ := Option.isSome_iff_exists.mp hk
  obtain ⟨j, rfl, hj⟩ := exists_place hs
  by_cases h0 : 0 ≤ h
  · obtain ⟨i, rfl⟩ := Int.eq_ofNat_of_zero_le h0
    rw [scope?_natCast, scope?_natCast]
    have hlt : j < a.scopes.size := Int.ofNat_lt.mp (lt_size_of_scope? hs)
    by_cases hij : i = j
    · subst hij
      simp [hlt]
    · have hji : ¬ j = i := fun he => hij he.symm
      have hne : ¬ (i : Handle) = (j : Handle) := fun he => hij (Int.ofNat.inj he)
      simp [hji, hne]
  · have hne : h ≠ (j : Nat) := fun he => h0 (he ▸ Int.natCast_nonneg _)
    simp [scope?, h0, hne]

theorem scope?_discard (a : Arena) (k h : Handle) :
    (a.discard k).scope? h = if h = k then none else a.scope? h := by
  unfold discard
  by_cases hk : a.isLive k
  · rw [if_pos hk, scope?_set hk]
  · rw [if_neg hk]
    split
    · subst h
      simpa [isLive] using hk
    · rfl

theorem scope?_put (hs : a.isLive s.handle) (h : Handle) :
    (a.put s).scope? h = if h = s.handle then some s else a.scope? h := by
  rw [put, if_pos hs, scope?_set hs]

theorem scope?_put_of_scope? {t : Scope} (hs : a.scope? h = some s) (ht : t.handle = h) (k : Handle) :
    (a.put t).scope? k = if k = h then some t else a.scope? k := by
  subst ht
  exact scope?_put (by simp [isLive, hs]) k

theorem scope?_put_cases {t : Scope} (h : Handle) (ht : (a.put s).scope? h = some t) :
    h = s.handle ∨ a.scope? h = some t := by
  by_cases hs : a.isLive s.handle
  · rw [scope?_put hs] at ht
    split at ht
    · exact .inl ‹_›
    · exact .inr ht
  · rw [put, if_neg hs] at ht
    exact .inr ht

@[simp] theorem nextWrite_discard (a : Arena) (k : Handle) : (a.discard k).nextWrite = a.nextWrite := by
  unfold discard
  split <;> rfl

@[simp] theorem nextWrite_put (a : Arena) (s : Scope) : (a.put s).nextWrite = a.nextWrite := by
  unfold put
  split <;> rfl

theorem nextWrite_foldl_discard (ks : List Handle) (a : Arena) :
    (ks.foldl discard a).nextWrite = a.nextWrite := by
  induction ks generalizing a with
  | nil => rfl
  | cons k ks ih => rw [List.foldl_cons, ih, nextWrite_discard]

theorem scope?_foldl_discard (ks : List Handle) (a : Arena) (h : Handle) :
    (ks.foldl discard a).scope? h = if h ∈ ks then none else a.scope? h := by
  induction ks generalizing a with
  | nil => simp
  | cons k ks ih =>
    rw [List.foldl_cons, ih, scope?_discard]
    by_cases hk : h = k <;> by_cases hks : h ∈ ks <;> simp [hk, hks]

theorem size_discard (a : Arena) (k : Handle) : (a.discard k).scopes.size = a.scopes.size := by
  unfold discard
  split <;> simp

theorem size_put (a : Arena) (s : Scope) : (a.put s).scopes.size = a.scopes.size := by
  unfold put
  split <;> simp

theorem size_foldl_discard (ks : List Handle) (a : Arena) :
    (ks.foldl discard a).scopes.size = a.scopes.size := by
  induction ks generalizing a with
  | nil => rfl
  | cons k ks ih => rw [List.foldl_cons, ih, size_discard]

theorem Placed.add (ha : a.Placed) (parent : Option Handle) (side : BranchSide) (vars : List Variable) :
    (a.add parent side vars).2.Placed := by
  intro h s hs
  rw [scope?_add] at hs
  split at hs
  · next hh => exact Option.some.inj hs ▸ hh.symm
  · exact ha h s hs

theorem Placed.put (ha : a.Placed) (s : Scope) : (a.put s).Placed := by
  intro h t ht
  by_cases hs : a.isLive s.handle
  · rw [scope?_put hs] at ht
    split at ht
    · next hh => exact Option.some.inj ht ▸ hh.symm
    · exact ha h t ht
  · rw [Arena.put, if_neg hs] at ht
    exact ha h t ht

theorem Placed.discard (ha : a.Placed) (k : Handle) : (a.discard k).Placed := by
  intro h s hs
  rw [scope?_discard] at hs
  split at hs
  · cases hs
  · exact ha h s hs

theorem Placed.foldl_discard (ha : a.Placed) (ks : List Handle) : (ks.foldl Arena.discard a).Placed := by
  induction ks generalizing a with
  | nil => exact ha
  | cons k ks ih => exact ih (ha.discard k)

/-- After a merge: the target is the merged scope, and the arms are gone. -/
theorem scope?_merge (ha : a.Placed) {p : Handle} (hp : a.scope? p = some s) (ks : List Handle)
    (arms : List Scope) (h : Handle) :
    (ks.foldl discard (a.put (s.merge arms))).scope? h =
      if h ∈ ks then none else if h = p then some (s.merge arms) else a.scope? h := by
  rw [scope?_foldl_discard, scope?_put_of_scope? (t := s.merge arms) hp (ha p s hp)]

/-- A branch has a new handle and the variables of its parent. -/
theorem branch_eq {p : Handle} (hp : a.scope? p = some s) (side : BranchSide) :
    a.branch p side = .ok (a.add (some p) side s.vars) := by
  simp [branch, get_of_scope? hp, bind, Except.bind, pure, Except.pure]

theorem updateVar_eq (hs : a.scope? h = some s) (name : String) (f : Variable → Variable) :
    a.updateVar h name f = .ok (a.put (s.updateVar name f)) := by
  simp [updateVar, get_of_scope? hs, bind, Except.bind, pure, Except.pure]

theorem write_eq (hs : a.scope? h = some s) (name : String) (type : TypeUnion) (value : Option Value)
    (range : Option Range) :
    a.write h name type value range =
      .ok (⟨a.nextWrite, type, value, range⟩,
        { a.put (s.updateVar name (·.write ⟨a.nextWrite, type, value, range⟩)) with
          nextWrite := a.nextWrite + 1 }) := by
  simp [write, updateVar_eq hs, bind, Except.bind, pure, Except.pure]

theorem mapM_get {ks : List Handle} {ss : List Scope}
    (h : List.Forall₂ (fun k s => a.scope? k = some s) ks ss) : ks.mapM a.get = .ok ss := by
  induction h with
  | nil => rfl
  | cons hk _ ih => simp [List.mapM_cons, get_of_scope? hk, ih, bind, Except.bind, pure, Except.pure]

theorem merge_eq {p : Handle} {ks : List Handle} {ss : List Scope} (hp : a.scope? p = some s)
    (h : List.Forall₂ (fun k s => a.scope? k = some s) ks ss) :
    a.merge p ks = .ok (ks.foldl discard (a.put (s.merge ss))) := by
  simp [merge, get_of_scope? hp, mapM_get h, bind, Except.bind, pure, Except.pure]

end Arena

end PhpFlow
