import PhpFlow.Proofs.Locality

/-!
# The numbers of writes

A number belongs to one write only, and all numbers in use are below that of the next write. While code is
analysed histories only grow, at their end and by writes with new numbers. So two writes of one number in
different arms are the same write, and none is lost when only the first of each number is kept.
-/
namespace PhpFlow

open List

namespace Trail

/-- Writes with one number are one write. -/
def Distinguished (ws : List Write) : Prop := ∀ w ∈ ws, ∀ w' ∈ ws, w.id = w'.id → w = w'

theorem mem_distinct_iff {ws : List Write} (hws : Distinguished ws) : w ∈ Variable.distinct ws ↔ w ∈ ws :=
  Firsts.mem_keep_iff hws

variable {t : Trail} {arms : List Trail}
variable {w : Write}

theorem mem_merge_live (hd : Distinguished (arms.flatMap (·.live))) :
    w ∈ (t.merge arms).live ↔ ∃ arm ∈ arms, w ∈ arm.live :=
  (mem_distinct_iff hd).trans mem_flatMap

/-- Merging loses no write of an arm and adds no other. -/
theorem mem_merge_history (hd : Distinguished (arms.flatMap (·.history)))
    (hpre : ∀ arm ∈ arms, t.history <+: arm.history) (hlive : ∀ arm ∈ arms, ∀ w ∈ arm.live, w ∈ arm.history) :
    w ∈ (t.merge arms).history ↔ w ∈ t.history ∨ ∃ arm ∈ arms, w ∈ arm.history := by
  let added := arms.flatMap (fun arm => arm.history.drop t.history.length) ++
    Variable.distinct (arms.flatMap (·.live))
  have hadded : ∀ x ∈ added, ∃ arm ∈ arms, x ∈ arm.history := by
    intro x hx
    rcases mem_append.mp hx with hx | hx
    · obtain ⟨arm, harm, hx⟩ := mem_flatMap.mp hx
      exact ⟨arm, harm, mem_of_mem_drop hx⟩
    · obtain ⟨arm, harm, hx⟩ := mem_flatMap.mp (Variable.mem_of_mem_distinct hx)
      exact ⟨arm, harm, hlive arm harm x hx⟩
  have hdist : Distinguished added := by
    intro x hx y hy hid
    exact hd x (mem_flatMap.mpr (hadded x hx)) y (mem_flatMap.mpr (hadded y hy)) hid
  have hmem : w ∈ (t.merge arms).history ↔ w ∈ t.history ∨ (w ∈ added ∧ ¬ Variable.knows t.history w) := by
    rw [Trail.merge, mem_append, Variable.missingFrom, mem_filter, mem_distinct_iff hdist]
    simp [added]
  rw [hmem]
  constructor
  · rintro (hw | ⟨hw, -⟩)
    · exact .inl hw
    · exact .inr (hadded w hw)
  · rintro (hw | ⟨arm, harm, hw⟩)
    · exact .inl hw
    · obtain ⟨new, hnew⟩ := hpre arm harm
      by_cases hk : Variable.knows t.history w
      · -- The write with this number in the common history is the same one.
        obtain ⟨y, hy, hid⟩ := (Variable.knows_iff _ _).mp hk
        have hy' : y ∈ arm.history := hnew ▸ mem_append_left new hy
        exact .inl (hd y (mem_flatMap.mpr ⟨arm, harm, hy'⟩) w
          (mem_flatMap.mpr ⟨arm, harm, hw⟩) hid ▸ hy)
      · rw [← hnew] at hw
        rcases mem_append.mp hw with hw | hw
        · exact .inl hw
        · refine .inr ⟨mem_append_left _ (mem_flatMap.mpr ⟨arm, harm, ?_⟩), hk⟩
          rw [← hnew, drop_left]
          exact hw

end Trail

/-- Every live write is in the history, every number is below `n`, and none belongs to two writes. -/
structure Scope.Numbered (sc : Scope) (n : Nat) : Prop where
  live : ∀ x, ∀ w ∈ (sc.trail x).live, w ∈ (sc.trail x).history
  below : ∀ x, ∀ w ∈ (sc.trail x).history, w.id < n
  same : ∀ x, Trail.Distinguished (sc.trail x).history

/-- The histories of `sc'` are those of `sc` with new writes at the end, numbered from `n` on. -/
structure Scope.GrowsTo (sc : Scope) (n : Nat) (sc' : Scope) : Prop where
  kept : ∀ x, (sc.trail x).history <+: (sc'.trail x).history
  fresh : ∀ x, ∀ w ∈ (sc'.trail x).history, w ∈ (sc.trail x).history ∨ n ≤ w.id

namespace Scope

variable {sc sc' : Scope} {n : Nat}

theorem GrowsTo.refl (sc : Scope) (n : Nat) : sc.GrowsTo n sc :=
  ⟨fun _ => prefix_rfl, fun _ _ hw => .inl hw⟩

theorem GrowsTo.trans {mid : Scope} {m : Nat} (h : sc.GrowsTo n mid) (hle : n ≤ m) (h' : mid.GrowsTo m sc') :
    sc.GrowsTo n sc' := by
  refine ⟨fun x => (h.kept x).trans (h'.kept x), fun x w hw => ?_⟩
  rcases h'.fresh x w hw with hw | hid
  · exact h.fresh x w hw
  · exact .inr (Nat.le_trans hle hid)

theorem Numbered.congr (ht : ∀ x, sc'.trail x = sc.trail x) (h : sc.Numbered n) : sc'.Numbered n := by
  refine ⟨fun x => ?_, fun x => ?_, fun x => ?_⟩ <;> rw [ht x]
  · exact h.live x
  · exact h.below x
  · exact h.same x

theorem Numbered.mono {n' : Nat} (h : sc.Numbered n) (hle : n ≤ n') : sc.Numbered n' :=
  ⟨h.live, fun x w hw => Nat.lt_of_lt_of_le (h.below x w hw) hle, h.same⟩

theorem GrowsTo.congr {sc₁ : Scope} (ht : ∀ x, sc₁.trail x = sc.trail x) (h : sc₁.GrowsTo n sc') :
    sc.GrowsTo n sc' := by
  refine ⟨fun x => ?_, fun x => ?_⟩ <;> rw [← ht x]
  · exact h.kept x
  · exact h.fresh x

theorem Numbered.write (h : sc.Numbered n) (name : String) {w : Write} (hw : w.id = n) :
    (sc.updateVar name (·.write w)).Numbered (n + 1) ∧ sc.GrowsTo n (sc.updateVar name (·.write w)) := by
  have htrail := trail_updateVar_write sc name w
  refine ⟨⟨fun x v hv => ?_, fun x v hv => ?_, fun x v hv v' hv' hid => ?_⟩, fun x => ?_, fun x v hv => ?_⟩
  · rw [htrail] at hv ⊢
    split at hv
    · next hx => simp_all [Trail.write]
    · next hx =>
      rw [if_neg hx]
      exact h.live x v hv
  · rw [htrail] at hv
    split at hv
    · next hx =>
      rcases mem_append.mp hv with hv | hv
      · exact Nat.lt_succ_of_lt (h.below _ v hv)
      · rw [mem_singleton.mp hv, hw]
        exact n.lt_succ_self
    · exact Nat.lt_succ_of_lt (h.below _ v hv)
  · rw [htrail] at hv hv'
    split at hv
    · next hx =>
      rw [if_pos hx] at hv'
      rcases mem_append.mp hv with hv | hv <;> rcases mem_append.mp hv' with hv' | hv'
      · exact h.same _ v hv v' hv' hid
      · -- An old number is below the new one.
        have := h.below _ v hv
        rw [mem_singleton.mp hv'] at hid
        omega
      · have := h.below _ v' hv'
        rw [mem_singleton.mp hv] at hid
        omega
      · rw [mem_singleton.mp hv, mem_singleton.mp hv']
    · next hx =>
      rw [if_neg hx] at hv'
      exact h.same x v hv v' hv' hid
  · rw [htrail]
    split
    · next hx =>
      rw [hx]
      exact prefix_append _ _
    · exact prefix_rfl
  · rw [htrail] at hv
    split at hv
    · next hx =>
      rw [hx]
      rcases mem_append.mp hv with hv | hv
      · exact .inl hv
      · rw [mem_singleton.mp hv]
        exact .inr (Nat.le_of_eq hw.symm)
    · exact .inl hv

/-- Arms of a construct that were worked on one after the other, with the numbers from `n` to `n'`. -/
inductive Arms (sc : Scope) : Nat → List Scope → Nat → Prop
  | nil (n : Nat) : Arms sc n [] n
  | cons {n n₁ n' : Nat} {arm : Scope} {arms : List Scope} (hnum : arm.Numbered n₁)
      (hgrow : sc.GrowsTo n arm) (hle : n ≤ n₁) (hrest : Arms sc n₁ arms n') : Arms sc n (arm :: arms) n'

namespace Arms

variable {sc : Scope} {n n' : Nat} {arms : List Scope}
variable (h : Arms sc n arms n')

include h

theorem le : n ≤ n' := by
  induction h with
  | nil => exact Nat.le_refl _
  | cons _ _ hle _ ih => exact Nat.le_trans hle ih

theorem grows : ∀ arm ∈ arms, sc.GrowsTo n arm := by
  induction h with
  | nil => simp
  | @cons n n₁ n' arm arms _ hgrow hle _ ih =>
    intro a ha
    rcases mem_cons.mp ha with rfl | ha
    · exact hgrow
    · have hga := ih a ha
      exact ⟨hga.kept, fun x w hw => (hga.fresh x w hw).imp_right (Nat.le_trans hle)⟩

theorem live : ∀ arm ∈ arms, ∀ x, ∀ w ∈ (arm.trail x).live,
    w ∈ (arm.trail x).history := by
  induction h with
  | nil => simp
  | cons hnum _ _ _ ih =>
    intro a ha
    rcases mem_cons.mp ha with rfl | ha
    · exact hnum.live
    · exact ih a ha

theorem lt : ∀ arm ∈ arms, ∀ x, ∀ w ∈ (arm.trail x).history, w.id < n' := by
  induction h with
  | nil => simp
  | cons hnum _ _ hrest ih =>
    intro a ha x w hw
    rcases mem_cons.mp ha with rfl | ha
    · exact Nat.lt_of_lt_of_le (hnum.below x w hw) hrest.le
    · exact ih a ha x w hw

/-- Writes of different arms have different numbers, unless they were made before. -/
theorem distinguished (hsc : sc.Numbered n) (x : String) :
    Trail.Distinguished (arms.flatMap fun arm => (arm.trail x).history) := by
  induction h with
  | nil => simp [Trail.Distinguished]
  | @cons n n₁ n' arm arms hnum hgrow hle hrest ih =>
    -- A write of the first arm and one of a later arm.
    have hcross : ∀ w ∈ (arm.trail x).history, ∀ w' ∈ arms.flatMap (fun arm => (arm.trail x).history),
        w.id = w'.id → w = w' := by
      intro w hw w' hw' hid
      obtain ⟨a, ha, hw'⟩ := mem_flatMap.mp hw'
      have hlt := hnum.below x w hw
      rcases (hrest.grows a ha).fresh x w' hw' with hw' | hge
      · have hw'' := (hgrow.kept x).subset hw'
        exact hnum.same x w hw w' hw'' hid
      · omega
    intro w hw w' hw' hid
    simp only [flatMap_cons, mem_append] at hw hw'
    rcases hw with hw | hw <;> rcases hw' with hw' | hw'
    · exact hnum.same x w hw w' hw' hid
    · exact hcross w hw w' hw' hid
    · exact (hcross w' hw' w hw hid.symm).symm
    · exact ih (hsc.mono hle) w hw w' hw' hid

variable (hne : arms ≠ []) (hsc : sc.Numbered n)

include hne hsc

theorem mem_live_merge {x : String}
    {w : Write} : w ∈ ((sc.merge arms).trail x).live ↔ ∃ arm ∈ arms, w ∈ (arm.trail x).live := by
  have hd : Trail.Distinguished ((arms.map (·.trail x)).flatMap (·.live)) := by
    intro w hw w' hw' hid
    obtain ⟨_, ht, hw⟩ := mem_flatMap.mp hw
    obtain ⟨_, ht', hw'⟩ := mem_flatMap.mp hw'
    obtain ⟨a, ha, rfl⟩ := mem_map.mp ht
    obtain ⟨a', ha', rfl⟩ := mem_map.mp ht'
    exact h.distinguished hsc x w (mem_flatMap.mpr ⟨a, ha, h.live a ha x w hw⟩) w'
      (mem_flatMap.mpr ⟨a', ha', h.live a' ha' x w' hw'⟩) hid
  rw [trail_merge sc hne x, Trail.mem_merge_live hd]
  simp

theorem mem_history_merge {x : String}
    {w : Write} : w ∈ ((sc.merge arms).trail x).history ↔
      w ∈ (sc.trail x).history ∨ ∃ arm ∈ arms, w ∈ (arm.trail x).history := by
  have hd : Trail.Distinguished ((arms.map (·.trail x)).flatMap (·.history)) := by
    rw [flatMap_map]
    exact h.distinguished hsc x
  rw [trail_merge sc hne x, Trail.mem_merge_history hd]
  · simp
  · intro t ht
    obtain ⟨a, ha, rfl⟩ := mem_map.mp ht
    exact (h.grows a ha).kept x
  · intro t ht
    obtain ⟨a, ha, rfl⟩ := mem_map.mp ht
    exact h.live a ha x

theorem merge_numbered : (sc.merge arms).Numbered n' := by
  refine ⟨fun x w hw => ?_, fun x w hw => ?_, fun x w hw w' hw' hid => ?_⟩
  · obtain ⟨a, ha, hw⟩ := (h.mem_live_merge hne hsc).mp hw
    exact (h.mem_history_merge hne hsc).mpr (.inr ⟨a, ha, h.live a ha x w hw⟩)
  · rcases (h.mem_history_merge hne hsc).mp hw with hw | ⟨a, ha, hw⟩
    · exact Nat.lt_of_lt_of_le (hsc.below x w hw) h.le
    · exact h.lt a ha x w hw
  · -- Whatever was there before is in every arm.
    have harm : ∀ v ∈ ((sc.merge arms).trail x).history,
        v ∈ arms.flatMap fun arm => (arm.trail x).history := by
      intro v hv
      rcases (h.mem_history_merge hne hsc).mp hv with hv | ⟨a, ha, hv⟩
      · obtain ⟨a, ha⟩ := exists_mem_of_ne_nil arms hne
        exact mem_flatMap.mpr ⟨a, ha, ((h.grows a ha).kept x).subset hv⟩
      · exact mem_flatMap.mpr ⟨a, ha, hv⟩
    exact h.distinguished hsc x w (harm w hw) w' (harm w' hw') hid

theorem merge_grows : sc.GrowsTo n (sc.merge arms) := by
  refine ⟨fun x => ?_, fun x w hw => ?_⟩
  · rw [trail_merge sc hne x]
    exact prefix_append _ _
  · rcases (h.mem_history_merge hne hsc).mp hw with hw | ⟨a, ha, hw⟩
    · exact .inl hw
    · exact (h.grows a ha).fresh x w hw

end Arms

end Scope

end PhpFlow
