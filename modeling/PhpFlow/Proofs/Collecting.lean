import Mathlib.Algebra.Ring.Nat
import Mathlib.Data.Finset.Card
import PhpFlow.Issue.Collector

/-!
# What a collector keeps

A collector is looked at after any sequence of issues. The threshold and the disabled kinds decide which of
the distinct issues are shown; which ones there are, and in what order, does not depend on them. An error is
above every threshold.
-/
namespace PhpFlow

open List

namespace Collector

variable {t t' : Severity} {d : List String} {is : List Issue} {i : Issue} {c : Collector}

def after (t : Severity) (d : List String) (is : List Issue) : Collector := is.foldl emit (new t d)

/-- One more issue is one more distinct issue unless it came before. -/
theorem eraseDups_concat (is : List Issue) (i : Issue) :
    (is ++ [i]).eraseDups = if i ∈ is then is.eraseDups else is.eraseDups ++ [i] := by
  rw [eraseDups_append]
  split <;> simp_all [List.removeAll, eraseDups_cons]

theorem after_eq (t : Severity) (d : List String) (is : List Issue) : after t d is = ⟨t, d, is.eraseDups⟩ := by
  induction is using List.reverseRecOn with
  | nil => rfl
  | append_singleton is i ih =>
    have hstep : after t d (is ++ [i]) = (after t d is).emit i := foldl_concat ..
    rw [hstep, ih, emit, eraseDups_concat]
    split <;> simp_all

theorem nodup_eraseDups (is : List Issue) : is.eraseDups.Nodup := by
  induction is using List.reverseRecOn with
  | nil => exact nodup_nil
  | append_singleton is i ih =>
    rw [eraseDups_concat]
    split
    · exact ih
    · next hi =>
      refine nodup_append.mpr ⟨ih, nodup_singleton i, fun j hj k hk => ?_⟩
      rintro rfl
      exact hi (by simp_all)

theorem length_eraseDups (is : List Issue) : is.eraseDups.length = is.toFinset.card := by
  have hset : is.eraseDups.toFinset = is.toFinset := by
    ext i
    simp
  rw [← hset, toFinset_card_of_nodup (nodup_eraseDups is)]

section Counts

theorem sum_tally (name : String) (cs : List (String × Nat)) :
    ((tally name cs).map (·.2)).sum = (cs.map (·.2)).sum + 1 := by
  induction cs with
  | nil => rfl
  | cons c cs ih =>
    rw [tally]
    split
    · simp only [map_cons, sum_cons]
      omega
    · simp only [map_cons, sum_cons, ih]
      omega

/-- An issue that came before changes nothing. A new one is shown behind the others and counted nowhere, or it
is counted once under its kind and what is shown stays. -/
theorem emit_cases (c : Collector) (i : Issue) :
    (i ∈ c.emitted ∧ c.emit i = c) ∨
    (i ∉ c.emitted ∧ (c.emit i).emitted = c.emitted ++ [i] ∧
      ((c.shows i = true ∧ (c.emit i).issues = c.issues ++ [i] ∧
          (c.emit i).suppressed = c.suppressed ∧ (c.emit i).suppressedCount = c.suppressedCount) ∨
        (c.shows i = false ∧ (c.emit i).issues = c.issues ∧
          (c.emit i).suppressed = tally i.kind.id c.suppressed ∧
          (c.emit i).suppressedCount = c.suppressedCount + 1))) := by
  by_cases hi : i ∈ c.emitted
  · exact .inl ⟨hi, by simp [emit, hi]⟩
  · have hemit : c.emit i = { c with emitted := c.emitted ++ [i] } := by simp [emit, hi]
    have hshows : (c.emit i).shows = c.shows := by rw [hemit]; rfl
    refine .inr ⟨hi, by rw [hemit], ?_⟩
    simp only [issues, suppressed, suppressedCount, hidden, counts, hshows]
    cases hs : c.shows i <;> simp [hemit, hs, filter_append]

/-- Every distinct issue is either shown or counted under its kind. -/
structure Balanced (c : Collector) : Prop where
  parts : c.issues.length + c.suppressedCount = c.emitted.length
  kinds : (c.suppressed.map (·.2)).sum = c.suppressedCount

theorem Balanced.emit (h : c.Balanced) (i : Issue) : (c.emit i).Balanced := by
  obtain ⟨hparts, hkinds⟩ := h
  obtain ⟨-, hsame⟩ | ⟨-, hnew, ⟨-, hshown, hnames, hcount⟩ | ⟨-, hshown, hnames, hcount⟩⟩ := c.emit_cases i
  · rw [hsame]
    exact ⟨hparts, hkinds⟩
  · refine ⟨?_, by rw [hnames, hcount, hkinds]⟩
    rw [hshown, hcount, hnew, length_append, length_append, ← hparts]
    omega
  · refine ⟨?_, by rw [hnames, hcount, sum_tally, hkinds]⟩
    rw [hshown, hcount, hnew, length_append, ← hparts]
    rfl

theorem balanced_after (t : Severity) (d : List String) (is : List Issue) : (after t d is).Balanced := by
  induction is using List.reverseRecOn with
  | nil => exact ⟨rfl, rfl⟩
  | append_singleton is i ih =>
    rw [after, foldl_concat]
    exact ih.emit i

end Counts

section Order

theorem precedes_iff (i j : Issue) : precedes i j = true ↔
    fileKey i < fileKey j ∨ fileKey i = fileKey j ∧ byteKey i ≤ byteKey j := by
  simp [precedes]

theorem precedes_trans (i j k : Issue) (hij : precedes i j = true) (hjk : precedes j k = true) :
    precedes i k = true := by
  rw [precedes_iff] at hij hjk ⊢
  rcases hij with hij | ⟨hij, hbyte⟩
  · rcases hjk with hjk | ⟨hjk, -⟩
    · exact .inl (String.lt_trans hij hjk)
    · exact .inl (hjk ▸ hij)
  · rw [hij]
    exact hjk.imp_right fun h => ⟨h.1, Int.le_trans hbyte h.2⟩

theorem precedes_total (i j : Issue) : (precedes i j || precedes j i) = true := by
  rw [Bool.or_eq_true, precedes_iff, precedes_iff]
  by_cases hfile : fileKey i = fileKey j
  · exact (Int.le_total (byteKey i) (byteKey j)).imp (fun h => .inr ⟨hfile, h⟩) fun h => .inr ⟨hfile.symm, h⟩
  · by_cases hlt : fileKey i < fileKey j
    · exact .inl (.inl hlt)
    · exact .inr (.inl (Std.lt_of_le_of_ne (String.not_lt.mp hlt) (Ne.symm hfile)))

/-- Only an issue without a position comes before one without. -/
theorem position_of_precedes {i j : Issue} (h : precedes i j = true) (hj : j.position = none) :
    i.position = none := by
  rw [precedes_iff] at h
  cases hi : i.position with
  | none => rfl
  | some p =>
    exfalso
    simp only [fileKey, byteKey, hi, hj] at h
    rcases h with h | ⟨-, h⟩
    · exact not_lt_nil _ h
    · omega

theorem sorted_perm (c : Collector) : c.sorted.Perm c.issues := mergeSort_perm _ _

theorem pairwise_sorted (c : Collector) : c.sorted.Pairwise fun i j => precedes i j = true :=
  pairwise_mergeSort precedes_trans precedes_total c.issues

theorem filter_sorted (c : Collector) (f : String) (b : Int) :
    c.sorted.filter (fun i => fileKey i = f && byteKey i = b) =
      c.issues.filter fun i => fileKey i = f && byteKey i = b := by
  have hplace : (c.issues.filter fun i => fileKey i = f && byteKey i = b).Pairwise
      fun i j => precedes i j = true := by
    refine pairwise_filter.mpr (pairwise_of_forall fun i j hi hj => (precedes_iff i j).mpr (.inr ?_))
    simp_all
  have hsub := (sublist_mergeSort precedes_trans precedes_total hplace filter_sublist).filter
    fun i => fileKey i = f && byteKey i = b
  rw [filter_filter] at hsub
  simp only [Bool.and_self] at hsub
  exact (hsub.eq_of_length (c.sorted_perm.filter _).length_eq.symm).symm

end Order

theorem hasErrors_mk (t : Severity) (d : List String) (is : List Issue) :
    (⟨t, d, is⟩ : Collector).hasErrors = is.any fun i => !d.contains i.kind.id && i.severity == .error := by
  have hrank : t.rank ≤ Severity.error.rank := by cases t <;> decide
  rw [hasErrors, issues, any_filter]
  congr 1
  funext i
  rw [shows]
  cases hi : i.severity == .error with
  | false => simp
  | true => simp_all

/-- A collector keeps what came first of equal issues, and shows those of enabled kinds at or above the
threshold. A higher threshold takes issues away, but no error. Sorted issues stand by file and place, those
without a position first, and issues at one place stay in order. -/
theorem collection_is_consistent (t : Severity) (d : List String) (is : List Issue) :
    let c := after t d is
    c.issues = is.eraseDups.filter (fun i => !d.contains i.kind.id && t.rank ≤ i.severity.rank) ∧
    c.issues.length + c.suppressedCount = is.toFinset.card ∧
    (c.suppressed.map (·.2)).sum = c.suppressedCount ∧
    (∀ t', t.rank ≤ t'.rank → (after t' d is).issues.Sublist c.issues) ∧
    (∀ t', (after t' d is).hasErrors = c.hasErrors) ∧
    c.sorted.Perm c.issues ∧
    c.sorted.Pairwise (fun i j => fileKey i < fileKey j ∨ fileKey i = fileKey j ∧ byteKey i ≤ byteKey j) ∧
    (∀ f b, c.sorted.filter (fun i => fileKey i = f && byteKey i = b) =
      c.issues.filter fun i => fileKey i = f && byteKey i = b) ∧
    c.sorted.Pairwise fun i j => j.position = none → i.position = none := by
  intro c
  have hc : c = ⟨t, d, is.eraseDups⟩ := after_eq t d is
  refine ⟨?_, ?_, ?_, fun t' ht => ?_, fun t' => ?_, c.sorted_perm,
    c.pairwise_sorted.imp (precedes_iff _ _).mp, c.filter_sorted, c.pairwise_sorted.imp position_of_precedes⟩
  · rw [hc]
    rfl
  · rw [(balanced_after t d is).parts, ← length_eraseDups]
    exact congrArg (fun c => c.emitted.length) hc
  · exact (balanced_after t d is).kinds
  · rw [hc, after_eq]
    refine monotone_filter_right _ fun i hi => ?_
    simp only [shows, Bool.and_eq_true, decide_eq_true_eq] at hi ⊢
    exact ⟨hi.1, Nat.le_trans ht hi.2⟩
  · rw [hc, after_eq, hasErrors_mk, hasErrors_mk]

end Collector

end PhpFlow
