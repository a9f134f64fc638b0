import Mathlib.Algebra.Ring.Int.Defs
import PhpFlow.Proofs.Histories
import PhpFlow.Proofs.Numbering
import PhpFlow.Proofs.Usage

/-!
# Counting reads and writes

Between two points of an analysis the counts of a scope go up by what the code between them uses. This stays
so where arms are merged: the arms start with the counts of the scope that they were copied from, so that
merging adds up what each of them has counted beyond that.
-/
namespace PhpFlow

open List

open Write (ids ids_append)

structure Account where
  name : String
  trail : Trail
  reads : Int
  writes : Nat
  isArgument : Bool

def Variable.account (v : Variable) : Account := ⟨v.name, v.trail, v.reads, v.writes, v.isArgument⟩

namespace Scope

def reads (sc : Scope) (x : String) : Int := ((sc.var? x).map (·.reads)).getD 0

def isArgument (sc : Scope) (x : String) : Bool := ((sc.var? x).map (·.isArgument)).getD false

/-- The counts can be relied on: no variable is listed twice, no write is counted twice, and every write
is counted. -/
structure Orderly (sc : Scope) (n : Nat) : Prop extends sc.Numbered n where
  names : (sc.vars.map (·.name)).Nodup
  once : ∀ x, (ids (sc.trail x).history).Nodup
  counted : ∀ x v, sc.var? x = some v → v.writes = v.history.length

namespace Orderly

variable {sc : Scope} {n n' : Nat}

theorem mono (h : sc.Orderly n) (hle : n ≤ n') : sc.Orderly n' :=
  { h with toNumbered := h.toNumbered.mono hle }

end Orderly

/-- The names after a change are those before it, with that of the changed variable. -/
theorem nodup_names_update (f : Variable → Variable) (hf : ∀ v, (f v).name = v.name) (name : String)
    {vs : List Variable} (h : (vs.map (·.name)).Nodup) : ((update f name vs).map (·.name)).Nodup := by
  have hmem : ∀ (vs : List Variable) (y : String), y ∈ (update f name vs).map (·.name) →
      y = name ∨ y ∈ vs.map (·.name) := by
    intro vs y hy
    induction vs with
    | nil => simp_all [update]
    | cons v vs ih =>
      by_cases hv : v.name = name
      · simp_all [update]
      · simp only [update, hv, if_false, map_cons, mem_cons] at hy ⊢
        rcases hy with hy | hy
        · exact .inr (.inl hy)
        · exact (ih hy).imp_right .inr
  induction vs with
  | nil => simp [update]
  | cons v vs ih =>
    rw [map_cons, nodup_cons] at h
    by_cases hv : v.name = name
    · simpa [update, hv, hf] using h
    · rw [update, if_neg hv, map_cons, nodup_cons]
      refine ⟨fun hm => ?_, ih h.2⟩
      rcases hmem vs v.name hm with he | he
      · exact hv he
      · exact h.1 he

/-- From `sc`, where the next write has the number `n`, to `sc'` and `n'` the counts have gone up by what
`u` lists. -/
structure Gains (sc : Scope) (n : Nat) (u : Usage) (sc' : Scope) (n' : Nat) : Prop where
  next : n ≤ n'
  orderly : sc'.Orderly n'
  grows : sc.GrowsTo n sc'
  known : ∀ x, sc'.var? x = none → sc.var? x = none
  reads : ∀ x, sc'.reads x = sc.reads x + u.reads.count x
  writes : ∀ x, (sc'.trail x).history.length = (sc.trail x).history.length + u.writes.count x
  arguments : ∀ x, sc'.isArgument x = sc.isArgument x

namespace Gains

variable {sc mid sc' : Scope} {n m n' : Nat} {u v : Usage}

theorem later (h : sc.Orderly n) (hle : n ≤ n') : sc.Gains n .none sc n' where
  next := hle
  orderly := h.mono hle
  grows := .refl sc n
  known _ hx := hx
  reads _ := by simp [Usage.none]
  writes _ := by simp [Usage.none]
  arguments _ := rfl

theorem trans (h : sc.Gains n u mid m) (h' : mid.Gains m v sc' n') : sc.Gains n (u ++ v) sc' n' where
  next := Nat.le_trans h.next h'.next
  orderly := h'.orderly
  grows := h.grows.trans h.next h'.grows
  known x hx := h.known x (h'.known x hx)
  reads x := by
    rw [h'.reads, h.reads, Usage.reads_append, count_append]
    omega
  writes x := by
    rw [h'.writes, h.writes, Usage.writes_append, count_append]
    omega
  arguments x := (h'.arguments x).trans (h.arguments x)

end Gains

section Updates

variable {sc : Scope} {n : Nat} {f : Variable → Variable} (hname : ∀ v, (f v).name = v.name) (name : String)

include hname

theorem reads_updateVar (x : String) : (sc.updateVar name f).reads x =
    if x = name then (f ((sc.var? name).getD { name })).reads else sc.reads x := by
  rw [reads, var?_updateVar sc hname]
  by_cases hx : x = name
  · simp [hx]
  · simp [hx, reads]

theorem isArgument_updateVar (x : String) : (sc.updateVar name f).isArgument x =
    if x = name then (f ((sc.var? name).getD { name })).isArgument else sc.isArgument x := by
  rw [isArgument, var?_updateVar sc hname]
  by_cases hx : x = name
  · simp [hx]
  · simp [hx, isArgument]

theorem known_updateVar (x : String) (h : (sc.updateVar name f).var? x = none) : sc.var? x = none := by
  rw [var?_updateVar sc hname] at h
  split at h
  · cases h
  · exact h

/-- Changing something else about a variable keeps the counts reliable. -/
theorem Orderly.updateVar (h : sc.Orderly n) (htrail : ∀ v, (f v).trail = v.trail)
    (hwrites : ∀ v, (f v).writes = v.writes) : (sc.updateVar name f).Orderly n where
  toNumbered := h.toNumbered.congr (trail_updateVar_keep sc hname htrail name)
  names := nodup_names_update f hname name h.names
  once x := by
    rw [trail_updateVar_keep sc hname htrail]
    exact h.once x
  counted x v hv := by
    rw [var?_updateVar sc hname] at hv
    split at hv
    · have hhistory : ∀ v, (f v).history = v.history := fun v => congrArg Trail.history (htrail v)
      obtain rfl := Option.some.inj hv
      rw [hwrites, hhistory]
      cases hw : sc.var? name with
      | none => rfl
      | some w => exact h.counted name w hw
    · exact h.counted x v hv

/-- The read count of one variable may go up, and that of no other. -/
theorem Gains.updateVar (h : sc.Orderly n) (u : Usage) (htrail : ∀ v, (f v).trail = v.trail)
    (hwrites : ∀ v, (f v).writes = v.writes) (hargument : ∀ v, (f v).isArgument = v.isArgument)
    (hreads : ∀ v, (f v).reads = v.reads + u.reads.count name)
    (hother : ∀ x, x ≠ name → u.reads.count x = 0) (hnone : u.writes = []) :
    sc.Gains n u (sc.updateVar name f) n where
  next := Nat.le_refl n
  orderly := h.updateVar hname name htrail hwrites
  grows := .congr (trail_updateVar_keep sc hname htrail name) (.refl _ n)
  known x hx := known_updateVar hname name x hx
  reads x := by
    rw [reads_updateVar hname]
    split
    · next hx =>
      subst hx
      rw [hreads, Scope.reads]
      cases sc.var? x <;> rfl
    · next hx => simp [hother x hx]
  writes x := by
    rw [trail_updateVar_keep sc hname htrail, hnone]
    simp
  arguments x := by
    rw [isArgument_updateVar hname]
    split
    · next hx =>
      subst hx
      rw [hargument, isArgument]
      cases sc.var? x <;> rfl
    · rfl

end Updates

section Single

variable {sc : Scope} {n : Nat} (h : sc.Orderly n) (name : String)

include h

theorem Gains.touch {f : Variable → Variable} (hf : ∀ v, (f v).account = v.account) :
    sc.Gains n .none (sc.updateVar name f) n :=
  .updateVar (fun v => congrArg Account.name (hf v)) name h .none
    (fun v => congrArg Account.trail (hf v)) (fun v => congrArg Account.writes (hf v))
    (fun v => congrArg Account.isArgument (hf v))
    (fun v => (congrArg Account.reads (hf v)).trans (by simp [Usage.none, Variable.account]))
    (fun _ _ => rfl) rfl

theorem Gains.read (r : Option Range) : sc.Gains n (.reading [name]) (sc.updateVar name (·.read r)) n :=
  .updateVar (f := (·.read r)) (fun _ => rfl) name h (.reading [name]) (fun _ => rfl) (fun _ => rfl)
    (fun _ => rfl) (fun v => by simp [Variable.read, Usage.reading])
    (fun x hx => count_eq_zero.mpr (by simpa [Usage.reading] using hx)) rfl

theorem Gains.write {w : Write} (hw : w.id = n) :
    sc.Gains n (.writing [name]) (sc.updateVar name (·.write w)) (n + 1) := by
  obtain ⟨hnum, hgrows⟩ := h.toNumbered.write name hw
  have hname : ∀ v : Variable, (v.write w).name = v.name := fun _ => rfl
  have htrail := trail_updateVar_write sc name w
  refine ⟨Nat.le_succ n, ⟨hnum, ?_, ?_, ?_⟩, hgrows, fun x hx => known_updateVar hname name x hx, ?_, ?_, ?_⟩
  · exact nodup_names_update _ hname name h.names
  · intro x
    rw [htrail]
    split
    · refine Variable.nodup_ids_concat (h.once name) fun hmem => ?_
      obtain ⟨w', hw', hid⟩ := mem_map.mp hmem
      have hlt := h.below name w' hw'
      omega
    · exact h.once x
  · intro x v hv
    rw [var?_updateVar sc hname] at hv
    split at hv
    · obtain rfl := Option.some.inj hv
      cases hv : sc.var? name with
      | none => simp [Variable.write]
      | some v => simp [Variable.write, h.counted name v hv]
    · exact h.counted x v hv
  · intro x
    rw [reads_updateVar hname]
    split
    · next hx =>
      subst hx
      cases hv : sc.var? x <;> simp [Variable.write, Usage.writing, Scope.reads, hv]
    · simp [Usage.writing]
  · intro x
    rw [htrail]
    by_cases hx : x = name
    · simp [hx, Trail.write, Usage.writing]
    · have hzero : [name].count x = 0 := count_eq_zero.mpr (by simpa using hx)
      simp [hx, hzero, Usage.writing]
  · intro x
    rw [isArgument_updateVar hname]
    split
    · next hx =>
      subst hx
      cases hv : sc.var? x <;> simp [Variable.write, isArgument, hv]
    · rfl

end Single

section Merging

/-- What the arms that know a variable have counted adds up to what all of them have. -/
theorem sum_reads (arms : List Scope) (x : String) (base : Int)
    (hknown : ∀ arm ∈ arms, arm.var? x = none → base = 0) :
    ((copies arms x).map fun v => v.reads - base).sum = (arms.map fun arm => arm.reads x - base).sum := by
  induction arms with
  | nil => rfl
  | cons arm arms ih =>
    rw [forall_mem_cons] at hknown
    cases hv : arm.var? x with
    | none => simpa [copies, hv, reads, hknown.1 hv] using ih hknown.2
    | some v => simpa [copies, hv, reads] using ih hknown.2

theorem reads_mergeVar (sc : Scope) (arms : List Scope) (x : String)
    (hknown : ∀ arm ∈ arms, arm.var? x = none → sc.var? x = none) :
    (sc.mergeVar arms x).reads = sc.reads x + (arms.map fun arm => arm.reads x - sc.reads x).sum := by
  have hbase : ∀ arm ∈ arms, arm.var? x = none → sc.reads x = 0 := by
    intro arm harm hx
    simp [reads, hknown arm harm hx]
  have hstart : (sc.mergeStart x (copies arms x)).reads = sc.reads x := by
    cases hv : sc.var? x <;> simp [mergeStart, reads, hv]
  rw [mergeVar_eq, ← sum_reads arms x _ hbase, ← hstart]
  rfl

theorem reads_merge (sc : Scope) (arms : List Scope) (x : String)
    (hknown : ∀ arm ∈ arms, arm.var? x = none → sc.var? x = none) :
    (sc.merge arms).reads x = sc.reads x + (arms.map fun arm => arm.reads x - sc.reads x).sum := by
  rw [reads, var?_merge]
  split
  · next h =>
    -- Where nobody knows the variable, nobody has counted anything.
    have hzero : arms.map (fun arm => arm.reads x - sc.reads x) = arms.map fun _ => 0 :=
      map_congr_left fun arm harm => by simp [reads, h.1, h.2 arm harm]
    have hnone : sc.reads x = 0 := by simp [reads, h.1]
    rw [hzero, hnone]
    simp
  · exact reads_mergeVar sc arms x hknown

/-- A variable is an argument after the arms if it was one before, for no arm makes it one. -/
theorem isArgument_merge (sc : Scope) (arms : List Scope) (x : String)
    (hsame : ∀ arm ∈ arms, arm.isArgument x = sc.isArgument x) :
    (sc.merge arms).isArgument x = sc.isArgument x := by
  rw [isArgument, var?_merge]
  split
  · next h => simp [isArgument, h.1]
  · change (sc.mergeVar arms x).isArgument = _
    rw [mergeVar_eq]
    change (sc.mergeStart x (copies arms x)).isArgument = _
    cases hv : sc.var? x with
    | some v => simp [mergeStart, isArgument, hv]
    | none =>
      cases hc : copies arms x with
      | nil => simp [mergeStart, isArgument, hv]
      | cons v vs =>
        obtain ⟨arm, harm, hvx⟩ := mem_copies.mp (hc ▸ mem_cons_self : v ∈ copies arms x)
        have harg : v.isArgument = sc.isArgument x := by
          rw [← hsame arm harm, isArgument, hvx]
          rfl
        simp [mergeStart, hv, harg, isArgument]

theorem nodup_firstOccurrences (names : List String) : (firstOccurrences names).Nodup := by
  rw [firstOccurrences_eq, ← map_id (Firsts.keep id names)]
  exact Firsts.nodup_keep names

theorem nodup_names_merge (sc : Scope) (arms : List Scope) : ((sc.merge arms).vars.map (·.name)).Nodup := by
  have hnames : ∀ names : List String, (names.map (sc.mergeVar arms)).map (·.name) = names := by
    intro names
    rw [map_map]
    exact (map_congr_left fun x _ => mergeVar_name sc arms x).trans (map_id' names)
  rw [merge, hnames]
  exact nodup_firstOccurrences _

theorem counted_merge {sc : Scope} (arms : List Scope)
    (h : ∀ x v, sc.var? x = some v → v.writes = v.history.length) {x : String} {v : Variable}
    (hv : (sc.merge arms).var? x = some v) : v.writes = v.history.length := by
  rw [var?_merge] at hv
  split at hv
  · cases hv
  · obtain rfl := Option.some.inj hv
    have hstart : (sc.mergeStart x (copies arms x)).writes = (sc.mergeStart x (copies arms x)).history.length := by
      cases hx : sc.var? x with
      | none => simp [mergeStart, hx]
      | some v => simpa [mergeStart, hx] using h x v hx
    rw [mergeVar_eq]
    simp [Variable.mergeCopies, hstart]

/-- Arms that were worked on one after the other, each from a copy of `sc`: what they use, what they have
become, and the numbers of the next write before and after. -/
inductive ArmsGain (sc : Scope) : Nat → List Usage → List Scope → Nat → Prop
  | nil (n : Nat) : ArmsGain sc n [] [] n
  | cons {n n₁ n' : Nat} {u : Usage} {us : List Usage} {arm : Scope} {arms : List Scope}
      (h : sc.Gains n u arm n₁) (hrest : ArmsGain sc n₁ us arms n') :
      ArmsGain sc n (u :: us) (arm :: arms) n'

namespace ArmsGain

variable {sc : Scope} {n n' : Nat} {us : List Usage} {arms : List Scope}
variable (h : ArmsGain sc n us arms n')

include h

theorem toArms : Arms sc n arms n' := by
  induction h with
  | nil n => exact .nil n
  | cons h _ ih => exact .cons h.orderly.toNumbered h.grows h.next ih

theorem forall_arms {P : Scope → Prop}
    (hP : ∀ n u arm n', sc.Gains n u arm n' → P arm) : ∀ arm ∈ arms, P arm := by
  induction h with
  | nil => simp
  | cons h _ ih =>
    intro arm harm
    rcases mem_cons.mp harm with rfl | harm
    · exact hP _ _ _ _ h
    · exact ih arm harm

theorem sum_reads (x : String) :
    (arms.map fun arm => arm.reads x - sc.reads x).sum = (Usage.flatten us).reads.count x := by
  induction h with
  | nil => simp [Usage.flatten, Usage.none]
  | cons h _ ih =>
    rw [map_cons, sum_cons, ih, h.reads, Usage.flatten, Usage.reads_append, count_append]
    omega

def added (sc : Scope) (arms : List Scope) (x : String) : List Write :=
  arms.flatMap fun arm => (arm.trail x).history.drop (sc.trail x).history.length

theorem length_added (x : String) : (added sc arms x).length = (Usage.flatten us).writes.count x := by
  induction h with
  | nil => rfl
  | cons h _ ih =>
    rw [added, flatMap_cons, length_append, length_drop, h.writes, Usage.flatten,
      Usage.writes_append, count_append, ← ih, added]
    omega

/-- No two arms have made the same write, and none of these writes was there before. -/
theorem nodup_added (x : String) : (ids (added sc arms x)).Nodup ∧ ∀ i ∈ ids (added sc arms x), n ≤ i := by
  induction h with
  | nil => simp [added, ids]
  | @cons n n₁ n' u us arm arms h hrest ih =>
    obtain ⟨new, hnew⟩ := h.grows.kept x
    have hdrop : (arm.trail x).history.drop (sc.trail x).history.length = new := by
      rw [← hnew, drop_left]
    have honce := h.orderly.once x
    rw [← hnew, ids_append, nodup_append] at honce
    obtain ⟨-, hnodup, hdisjoint⟩ := honce
    have hids : ids (added sc (arm :: arms) x) = ids new ++ ids (added sc arms x) := by
      rw [added, flatMap_cons, hdrop, ids_append]
      rfl
    have hbounds : ∀ i ∈ ids new, n ≤ i ∧ i < n₁ := by
      intro i hi
      obtain ⟨w, hw, rfl⟩ := mem_map.mp hi
      have hmem : w ∈ (arm.trail x).history := hnew ▸ mem_append_right _ hw
      refine ⟨(h.grows.fresh x w hmem).resolve_left fun hold => ?_, h.orderly.below x w hmem⟩
      exact hdisjoint w.id (mem_map_of_mem hold) w.id (mem_map_of_mem hw) rfl
    rw [hids, nodup_append]
    refine ⟨⟨hnodup, ih.1, fun i hi j hj hij => ?_⟩, fun i hi => ?_⟩
    · have hlt := (hbounds i hi).2
      have hle := ih.2 j hj
      omega
    · rcases mem_append.mp hi with hi | hi
      · exact (hbounds i hi).1
      · exact Nat.le_trans h.next (ih.2 i hi)

/-- Of what the arms bring, exactly the writes that they have made are new to the history. -/
theorem length_history (hne : arms ≠ []) (hsc : sc.Orderly n) (x : String) :
    ((sc.merge arms).trail x).history.length =
      (sc.trail x).history.length + (Usage.flatten us).writes.count x := by
  let H := (sc.trail x).history
  let live := Variable.distinct (arms.flatMap fun arm => (arm.trail x).live)
  have hhistory : ((sc.merge arms).trail x).history =
      H ++ Variable.missingFrom H (added sc arms x ++ live) := by
    rw [trail_merge sc hne x]
    simp only [Trail.merge, flatMap_map]
    rfl
  obtain ⟨hnodup, hbound⟩ := h.nodup_added x
  -- A live write of an arm is an old one or one that the arm has made.
  have hlive : ∀ w ∈ live, w.id ∈ ids (H ++ added sc arms x) := by
    intro w hw
    obtain ⟨arm, harm, hw⟩ := mem_flatMap.mp (Variable.mem_of_mem_distinct hw)
    have hw := h.toArms.live arm harm x w hw
    obtain ⟨new, hnew⟩ := (h.toArms.grows arm harm).kept x
    rw [← hnew] at hw
    refine mem_map_of_mem (mem_append.mpr ?_)
    refine (mem_append.mp hw).imp_right fun hw => mem_flatMap.mpr ⟨arm, harm, ?_⟩
    rw [← hnew, drop_left]
    exact hw
  have hold : (ids (H ++ added sc arms x)).Nodup := by
    rw [ids_append, nodup_append]
    refine ⟨hsc.once x, hnodup, fun i hi j hj hij => ?_⟩
    obtain ⟨w, hw, rfl⟩ := mem_map.mp hi
    have hlt := hsc.below x w hw
    have hle := hbound j hj
    omega
  have hnew := Variable.nodup_append_missingFrom (hsc.once x) (added sc arms x ++ live)
  have hperm : (ids (H ++ Variable.missingFrom H (added sc arms x ++ live))).Perm
      (ids (H ++ added sc arms x)) := by
    rw [perm_ext_iff_of_nodup hnew hold]
    intro i
    constructor
    · intro hi
      obtain ⟨w, hw, rfl⟩ := mem_map.mp hi
      rcases mem_append.mp hw with hw | hw
      · exact mem_map_of_mem (mem_append_left _ hw)
      · rcases mem_append.mp (Variable.mem_of_mem_missingFrom hw) with hw | hw
        · exact mem_map_of_mem (mem_append_right _ hw)
        · exact hlive w hw
    · intro hi
      obtain ⟨w, hw, rfl⟩ := mem_map.mp hi
      rcases mem_append.mp hw with hw | hw
      · exact mem_map_of_mem (mem_append_left _ hw)
      · exact Variable.mem_ids_append_missingFrom H (mem_append_left live hw)
  have hlength := hperm.length_eq
  rw [ids, ids, length_map, length_map] at hlength
  rw [hhistory, hlength, length_append, h.length_added]

/-- After arms the counts have gone up by what all the arms use. -/
theorem merge (hne : arms ≠ []) (hsc : sc.Orderly n) : sc.Gains n (.flatten us) (sc.merge arms) n' where
  next := h.toArms.le
  orderly :=
    { toNumbered := h.toArms.merge_numbered hne hsc.toNumbered
      names := nodup_names_merge sc arms
      once := fun x => by
        rw [trail_merge sc hne x]
        exact Variable.nodup_append_missingFrom (hsc.once x) _
      counted := fun _ _ hv => counted_merge arms hsc.counted hv }
  grows := h.toArms.merge_grows hne hsc.toNumbered
  known x hx := by
    rw [var?_merge] at hx
    split at hx
    · next hnone => exact hnone.1
    · cases hx
  reads x := by
    rw [reads_merge sc arms x (h.forall_arms fun _ _ _ _ hg => hg.known x), h.sum_reads]
  writes x := h.length_history hne hsc x
  arguments x := isArgument_merge sc arms x (h.forall_arms fun _ _ _ _ hg => hg.arguments x)

end ArmsGain

end Merging

end Scope

end PhpFlow
