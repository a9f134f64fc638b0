import Mathlib.Data.List.Induction
import Mathlib.Data.List.Nodup
import Mathlib.Tactic.Tauto

/-!
# First occurrences

Of several items with one key only the first is kept. Items can be added in groups: what a group adds is
what those before it lack. In which order they come decides which of them is kept, but not if a key belongs
to one item only.
-/
namespace PhpFlow

open List

namespace Firsts

variable {α β : Type} [DecidableEq β]

def known (key : α → β) (xs : List α) (x : α) : Bool := xs.any fun y => key y = key x

def keep (key : α → β) (xs : List α) : List α :=
  xs.foldl (fun acc x => if known key acc x then acc else acc ++ [x]) []

/-- What the items `ks` lack of `xs`, the first with each key. -/
def lacking (key : α → β) (ks xs : List α) : List α := (keep key xs).filter fun x => !known key ks x

variable {key : α → β} {ks xs ys : List α} {x : α}

theorem known_iff : known key xs x = true ↔ ∃ y ∈ xs, key y = key x := by simp [known]

theorem known_of_mem (h : x ∈ xs) : known key xs x = true := known_iff.mpr ⟨x, h, rfl⟩

theorem known_append (xs ys : List α) (x : α) :
    known key (xs ++ ys) x = (known key xs x || known key ys x) :=
  any_append

theorem keep_concat (xs : List α) (x : α) :
    keep key (xs ++ [x]) = if known key (keep key xs) x then keep key xs else keep key xs ++ [x] := by
  rw [keep, foldl_append]
  rfl

theorem known_keep (xs : List α) (x : α) : known key (keep key xs) x = known key xs x := by
  induction xs using List.reverseRecOn generalizing x with
  | nil => rfl
  | append_singleton xs y ih =>
    rw [keep_concat, known_append, ← ih]
    split
    · next hy =>
      have hsame : known key [y] x = true → known key (keep key xs) x = true := by
        intro hx
        obtain ⟨z, hz, hzy⟩ := known_iff.mp hy
        have hyx : key y = key x := by simpa [known] using hx
        exact known_iff.mpr ⟨z, hz, hzy.trans hyx⟩
      cases hx : known key [y] x with
      | false => rw [Bool.or_false]
      | true => rw [hsame hx, Bool.or_true]
    · rw [known_append]

theorem keep_concat_of_known (h : known key xs x = true) : keep key (xs ++ [x]) = keep key xs := by
  rw [keep_concat, known_keep, if_pos h]

theorem keep_concat_of_new (h : known key xs x = false) : keep key (xs ++ [x]) = keep key xs ++ [x] := by
  rw [keep_concat, known_keep, if_neg (by simp [h])]

/-- Items are added to others one after the other or all at once. -/
theorem keep_append (xs ys : List α) : keep key (xs ++ ys) = keep key xs ++ lacking key xs ys := by
  induction ys using List.reverseRecOn with
  | nil => simp [lacking, keep]
  | append_singleton ys y ih =>
    rw [← append_assoc]
    cases hy : known key ys y with
    | true =>
      have hall : known key (xs ++ ys) y = true := by rw [known_append, hy, Bool.or_true]
      rw [keep_concat_of_known hall, ih, lacking, lacking, keep_concat_of_known hy]
    | false =>
      have hlacking : lacking key xs (ys ++ [y]) = lacking key xs ys ++ [y].filter fun z => !known key xs z := by
        rw [lacking, lacking, keep_concat_of_new hy, filter_append]
      cases hx : known key xs y with
      | true =>
        have hall : known key (xs ++ ys) y = true := by rw [known_append, hx, Bool.true_or]
        rw [keep_concat_of_known hall, ih, hlacking]
        simp [hx]
      | false =>
        have hall : known key (xs ++ ys) y = false := by rw [known_append, hx, hy, Bool.or_false]
        rw [keep_concat_of_new hall, ih, hlacking]
        simp [hx]

/-- What a list of two parts adds: the second part adds what the first has not added. -/
theorem lacking_append (ks xs ys : List α) :
    lacking key ks (xs ++ ys) = lacking key ks xs ++ lacking key (ks ++ xs) ys := by
  rw [lacking, keep_append, filter_append]
  refine congrArg (lacking key ks xs ++ ·) ?_
  rw [lacking, lacking, filter_filter]
  refine filter_congr fun x _ => ?_
  rw [known_append, Bool.not_or, Bool.and_comm]

theorem mem_of_mem_keep (h : x ∈ keep key xs) : x ∈ xs := by
  induction xs using List.reverseRecOn with
  | nil => exact h
  | append_singleton xs y ih =>
    cases hy : known key xs y with
    | true =>
      rw [keep_concat_of_known hy] at h
      exact mem_append_left _ (ih h)
    | false =>
      rw [keep_concat_of_new hy] at h
      rcases mem_append.mp h with h | h
      · exact mem_append_left _ (ih h)
      · exact mem_append_right _ h

theorem exists_mem_keep (h : x ∈ xs) : ∃ y ∈ keep key xs, key y = key x :=
  known_iff.mp ((known_keep xs x).trans (known_of_mem h))

theorem nodup_keep (xs : List α) : ((keep key xs).map key).Nodup := by
  induction xs using List.reverseRecOn with
  | nil => exact nodup_nil
  | append_singleton xs y ih =>
    cases hy : known key xs y with
    | true => rwa [keep_concat_of_known hy]
    | false =>
      rw [keep_concat_of_new hy, map_append, nodup_append]
      refine ⟨ih, nodup_singleton _, ?_⟩
      rintro _ hk _ hky rfl
      obtain ⟨z, hz, hzk⟩ := mem_map.mp hk
      have hzy : key z = key y := hzk.trans (mem_singleton.mp hky)
      rw [known_iff.mpr ⟨z, mem_of_mem_keep hz, hzy⟩] at hy
      cases hy

theorem keep_of_nodup (h : (xs.map key).Nodup) : keep key xs = xs := by
  induction xs using List.reverseRecOn with
  | nil => rfl
  | append_singleton xs y ih =>
    rw [map_append, nodup_append] at h
    have hy : known key xs y = false := by
      refine Bool.eq_false_iff.mpr fun hk => ?_
      obtain ⟨z, hz, hzy⟩ := known_iff.mp hk
      exact h.2.2 (key z) (mem_map_of_mem hz) (key y) (by simp) hzy
    rw [keep_concat_of_new hy, ih h.1]

theorem lacking_keep (ks xs : List α) : lacking key ks (keep key xs) = lacking key ks xs := by
  rw [lacking, lacking, keep_of_nodup (nodup_keep xs)]

theorem keep_append_keep (xs ys : List α) : keep key (xs ++ keep key ys) = keep key (xs ++ ys) := by
  rw [keep_append, lacking_keep, ← keep_append]

theorem lacking_eq_nil (h : ∀ x ∈ xs, known key ks x = true) : lacking key ks xs = [] := by
  refine filter_eq_nil_iff.mpr fun x hx => ?_
  simp [h x (mem_of_mem_keep hx)]

/-- What some items lack can be taken in place of all, where they are known. -/
theorem lacking_lacking (ks ks' xs : List α) :
    lacking key (ks ++ ks') (lacking key ks xs) = lacking key (ks ++ ks') xs := by
  have hnodup : ((lacking key ks xs).map key).Nodup :=
    (nodup_keep xs).sublist (List.Sublist.map key filter_sublist)
  rw [lacking, keep_of_nodup hnodup, lacking, lacking, filter_filter]
  refine filter_congr fun x _ => ?_
  rw [known_append]
  cases known key ks x <;> simp

/-- The items that lack nothing know what they have been given. -/
theorem known_append_lacking (ks xs : List α) (x : α) :
    known key (ks ++ lacking key ks xs) x = known key (ks ++ xs) x := by
  rw [← known_keep (ks ++ xs), keep_append, known_append, known_append, known_keep]

theorem lacking_congr {ks' : List α} (h : ∀ x ∈ xs, known key ks x = known key ks' x) :
    lacking key ks xs = lacking key ks' xs :=
  filter_congr fun x hx => by rw [h x (mem_of_mem_keep hx)]

/-- Items that are added in two steps: those of the second part that are lacking, and then the rest. -/
theorem lacking_nested {cs : List α} (h : ∀ c ∈ cs, known key (ks ++ ys) c = true) (zs : List α) :
    lacking key ks (xs ++ lacking key ks (ys ++ cs) ++ zs) = lacking key ks (xs ++ ys ++ zs) := by
  have hcs : ∀ c ∈ cs, known key (ks ++ xs ++ ys) c = true := by
    intro c hc
    have hknown := h c hc
    simp only [known_append, Bool.or_eq_true] at hknown ⊢
    tauto
  have hparts : lacking key ks (xs ++ lacking key ks (ys ++ cs)) = lacking key ks (xs ++ ys) := by
    rw [lacking_append, lacking_lacking, lacking_append, lacking_eq_nil hcs, append_nil, ← lacking_append]
  have hknown : ∀ z, known key cs z = true → known key (ks ++ ys) z = true := by
    intro z hz
    obtain ⟨c, hc, hcz⟩ := known_iff.mp hz
    obtain ⟨y, hy, hyc⟩ := known_iff.mp (h c hc)
    exact known_iff.mpr ⟨y, hy, hyc.trans hcz⟩
  rw [lacking_append, hparts]
  refine Eq.trans (congrArg (_ ++ ·) (lacking_congr fun z _ => ?_)) (lacking_append _ _ _).symm
  have hgiven : known key (ks ++ lacking key ks (ys ++ cs)) z = known key (ks ++ (ys ++ cs)) z :=
    known_append_lacking _ _ z
  have hcz := hknown z
  rw [Bool.eq_iff_iff] at hgiven ⊢
  simp only [known_append, Bool.or_eq_true] at hgiven hcz ⊢
  tauto

/-- What comes again adds nothing, also before others. -/
theorem keep_append_known (h : ∀ y ∈ ys, known key xs y = true) (zs : List α) :
    keep key (xs ++ (ys ++ zs)) = keep key (xs ++ zs) := by
  rw [keep_append, lacking_append, lacking_eq_nil h, nil_append, keep_append]
  refine congrArg (keep key xs ++ ·) (filter_congr fun z _ => ?_)
  have hys : known key ys z = true → known key xs z = true := by
    intro hz
    obtain ⟨y, hy, hyz⟩ := known_iff.mp hz
    obtain ⟨x, hx, hxy⟩ := known_iff.mp (h y hy)
    exact known_iff.mpr ⟨x, hx, hxy.trans hyz⟩
  rw [known_append]
  cases hz : known key ys z with
  | false => rw [Bool.or_false]
  | true => rw [hys hz, Bool.true_or]

/-- Where a key belongs to one item only, no item is lost. -/
theorem mem_keep_iff (h : ∀ y ∈ xs, ∀ z ∈ xs, key y = key z → y = z) : x ∈ keep key xs ↔ x ∈ xs := by
  refine ⟨mem_of_mem_keep, fun hx => ?_⟩
  obtain ⟨y, hy, hyx⟩ : ∃ y ∈ keep key xs, key y = key x := exists_mem_keep hx
  exact h y (mem_of_mem_keep hy) x hx hyx ▸ hy

/-- Where a key belongs to one item only, the order in which the items come does not decide which are
kept. -/
theorem keep_perm (hperm : xs.Perm ys) (h : ∀ y ∈ xs, ∀ z ∈ xs, key y = key z → y = z) :
    (keep key xs).Perm (keep key ys) := by
  have h' : ∀ y ∈ ys, ∀ z ∈ ys, key y = key z → y = z := fun y hy z hz =>
    h y (hperm.mem_iff.mpr hy) z (hperm.mem_iff.mpr hz)
  refine (perm_ext_iff_of_nodup (nodup_keep xs).of_map (nodup_keep ys).of_map).mpr fun x => ?_
  rw [mem_keep_iff h, mem_keep_iff h', hperm.mem_iff]

theorem lacking_perm (ks : List α) (hperm : xs.Perm ys) (h : ∀ y ∈ xs, ∀ z ∈ xs, key y = key z → y = z) :
    (lacking key ks xs).Perm (lacking key ks ys) :=
  (keep_perm hperm h).filter _

end Firsts

end PhpFlow
