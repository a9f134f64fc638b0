import PhpFlow.Proofs.Histories
import Mathlib.Algebra.BigOperators.Group.List.Basic

/-!
# Merging arms in groups and in other orders

Arms can be merged in groups: the target comes out as if all had been merged into it at once. And if they come
in another order, no variable has other writes, reads or references afterwards. Both are shown of the copies
of one variable first, then of scopes, and then of arenas after any operations.
-/
namespace PhpFlow

open List

open Write (Recorded)

namespace Variable

variable {v v' : Variable} {as bs : List Variable}

/-- The variables have the same records of writes and reads, so that copies add the same to both. -/
structure StartsLike (v v' : Variable) : Prop where
  history : v'.history = v.history
  writes : v'.writes = v.writes
  reads : v'.reads = v.reads
  references : v'.references = v.references
  reportedUnknown : v'.reportedUnknown = v.reportedUnknown
  commentType : v'.commentType = v.commentType

/-- The copies `bs` can be merged before, into a variable of their own that then counts as one copy. -/
theorem mergeCopies_nested (hstart : v.StartsLike v')
    (hlive : ∀ b ∈ bs, ∀ w ∈ b.live, w ∈ v.history ∨ w ∈ b.history.drop v.history.length)
    {absent absent' : Bool} (hsome : bs = [] → absent' = true) :
    v.mergeCopies (as ++ [v'.mergeCopies bs absent']) absent =
      v.mergeCopies (as ++ bs) (absent || absent') := by
  have hlives : distinct ((as ++ [v'.mergeCopies bs absent']).flatMap (·.live)) =
      distinct ((as ++ bs).flatMap (·.live)) := by
    rw [flatMap_append, flatMap_append, flatMap_singleton]
    exact Firsts.keep_append_keep _ _
  have hknown : ∀ w ∈ distinct (bs.flatMap (·.live)),
      knows (v.history ++ bs.flatMap (·.history.drop v.history.length)) w = true := by
    intro w hw
    obtain ⟨b, hb, hw⟩ := mem_flatMap.mp (mem_of_mem_distinct hw)
    refine Firsts.known_of_mem (mem_append.mpr ((hlive b hb w hw).imp_right fun hw => ?_))
    exact mem_flatMap.mpr ⟨b, hb, hw⟩
  have hadded : v.addedBy (as ++ [v'.mergeCopies bs absent']) = v.addedBy (as ++ bs) := by
    have hnew : (v'.mergeCopies bs absent').history.drop v.history.length = v.addedBy bs := by
      simp only [mergeCopies, addedBy, hstart.history, drop_left]
    rw [addedBy, addedBy, hlives]
    simp only [flatMap_append, flatMap_singleton, hnew]
    exact Firsts.lacking_nested hknown _
  -- An arm without live writes is found out at the inner merge, if not by the empty list that it leaves.
  have hempty : (distinct (bs.flatMap (·.live))).isEmpty = true →
      absent' = true ∨ bs.any (·.live.isEmpty) = true := by
    intro hnil
    have hnil := distinct_eq_nil (isEmpty_iff.mp hnil)
    cases bs with
    | nil => exact .inl (hsome rfl)
    | cons b bs =>
      have hb : b.live = [] := (append_eq_nil_iff.mp hnil).1
      exact .inr (by simp [hb])
  generalize hw : v'.mergeCopies bs absent' = w at hlives hadded
  have hflags : ((as ++ [w]).any (·.isPartial) || (absent || (as ++ [w]).any (·.live.isEmpty))) =
      ((as ++ bs).any (·.isPartial) || (absent || absent' || (as ++ bs).any (·.live.isEmpty))) := by
    have hpartial : w.isPartial = (bs.any (·.isPartial) || (absent' || bs.any (·.live.isEmpty))) := hw ▸ rfl
    have hwlive : w.live = distinct (bs.flatMap (·.live)) := hw ▸ rfl
    rw [← hwlive] at hempty
    rw [Bool.eq_iff_iff]
    simp only [any_append, any_cons, any_nil, Bool.or_false, hpartial, Bool.or_eq_true]
    tauto
  have hreads : v.reads + ((as ++ [w]).map fun c => c.reads - v.reads).sum =
      v.reads + ((as ++ bs).map fun c => c.reads - v.reads).sum := by
    have hwreads : w.reads = v.reads + (bs.map fun c => c.reads - v.reads).sum := by
      rw [← hw, ← hstart.reads]
      rfl
    simp only [map_append, sum_append, map_singleton, sum_singleton, hwreads]
    omega
  have hreferences : (as ++ [w]).flatMap (·.references.drop v.references.length) =
      (as ++ bs).flatMap (·.references.drop v.references.length) := by
    have hwreferences : w.references = v.references ++ bs.flatMap (·.references.drop v.references.length) := by
      rw [← hw, ← hstart.references]
      rfl
    simp only [flatMap_append, flatMap_singleton, hwreferences, drop_left]
  have hreported : (v.reportedUnknown || (as ++ [w]).any (·.reportedUnknown)) =
      (v.reportedUnknown || (as ++ bs).any (·.reportedUnknown)) := by
    have hwreported : w.reportedUnknown = (v.reportedUnknown || bs.any (·.reportedUnknown)) := by
      rw [← hw, ← hstart.reportedUnknown]
      rfl
    rw [Bool.eq_iff_iff]
    simp only [any_append, any_cons, any_nil, Bool.or_false, hwreported, Bool.or_eq_true]
    tauto
  have hcomment : (v.commentType <|> (as ++ [w]).findSome? (·.commentType)) =
      (v.commentType <|> (as ++ bs).findSome? (·.commentType)) := by
    have hwcomment : w.commentType = (v.commentType <|> bs.findSome? (·.commentType)) := by
      rw [← hw, ← hstart.commentType]
      rfl
    cases hv : v.commentType with
    | some type => rfl
    | none => simp [findSome?_append, hwcomment, hv]
  simp only [mergeCopies, hlives, hadded, hflags, hreads, hreferences, hreported, hcomment]

/-- The variables have the same writes, reads and references, in whatever order. -/
structure Resembles (v v' : Variable) : Prop where
  live : v.live.Perm v'.live
  history : v.history.Perm v'.history
  writes : v.writes = v'.writes
  reads : v.reads = v'.reads
  references : v.references.Perm v'.references
  isPartial : v.isPartial = v'.isPartial
  reportedUnknown : v.reportedUnknown = v'.reportedUnknown

theorem mergeCopies_perm {made : List Write} (hstart : v.StartsLike v') (hperm : as.Perm bs)
    (hmade : ∀ a ∈ as, a.Accounted made) (absent : Bool) :
    (v.mergeCopies as absent).Resembles (v'.mergeCopies bs absent) := by
  have hlive : ∀ w ∈ as.flatMap (·.live), made[w.id]? = some w := by
    intro w hw
    obtain ⟨a, ha, hw⟩ := mem_flatMap.mp hw
    exact (hmade a ha).recordedLive w hw
  have hnew : ∀ w ∈ as.flatMap (·.history.drop v.history.length), made[w.id]? = some w := by
    intro w hw
    obtain ⟨a, ha, hw⟩ := mem_flatMap.mp hw
    exact (hmade a ha).recorded w (mem_of_mem_drop hw)
  have hlives : (distinct (as.flatMap (·.live))).Perm (distinct (bs.flatMap (·.live))) :=
    Firsts.keep_perm (hperm.flatMap_right _) (Recorded.eq_of_id hlive)
  have hadded : (v.addedBy as).Perm (v'.addedBy bs) := by
    have hall := Recorded.append hnew (Recorded.subset hlive fun _ => mem_of_mem_distinct)
    rw [addedBy, addedBy, hstart.history]
    exact Firsts.lacking_perm _ ((hperm.flatMap_right _).append hlives) (Recorded.eq_of_id hall)
  constructor
  · exact hlives
  · simpa only [mergeCopies, hstart.history] using hadded.append_left v.history
  · simp only [mergeCopies, hstart.writes, hadded.length_eq]
  · simp only [mergeCopies, hstart.reads]
    rw [(hperm.map fun c => c.reads - v.reads).sum_eq]
  · simpa only [mergeCopies, hstart.references] using
      (hperm.flatMap_right fun c => c.references.drop v.references.length).append_left v.references
  · rw [Bool.eq_iff_iff]
    simp [mergeCopies, hperm.mem_iff]
  · rw [Bool.eq_iff_iff]
    simp [mergeCopies, hstart.reportedUnknown, hperm.mem_iff]

end Variable

namespace Scope

variable {target inner : Scope} {as bs : List Scope}

theorem var?_congr (h : inner.vars = target.vars) (x : String) : inner.var? x = target.var? x := by
  rw [var?, var?, h]

theorem startsLike_mergeStart (h : inner.vars = target.vars) (x : String) (vs vs' : List Variable) :
    (target.mergeStart x vs).StartsLike (inner.mergeStart x vs') := by
  rw [mergeStart, mergeStart, var?_congr h]
  cases target.var? x <;> constructor <;> rfl

theorem copies_append (as bs : List Scope) (x : String) : copies (as ++ bs) x = copies as x ++ copies bs x :=
  filterMap_append

theorem anyLacks_append (as bs : List Scope) (x : String) :
    anyLacks (as ++ bs) x = (anyLacks as x || anyLacks bs x) :=
  any_append

/-- What is live in an arm was written before it began, or in it. -/
theorem live_of_extends {arm : Scope} (hextends : inner.Extends arm) (harm : ∀ v ∈ arm.vars, v.Coherent)
    {x : String} {v : Variable} (hv : arm.var? x = some v) (vs : List Variable) {w : Write} (hw : w ∈ v.live) :
    w ∈ (inner.mergeStart x vs).history ∨ w ∈ v.history.drop (inner.mergeStart x vs).history.length := by
  have hw := (harm v (mem_of_var? hv)).live w hw
  cases hold : inner.var? x with
  | none => exact .inr (by simpa [mergeStart, hold] using hw)
  | some old =>
    obtain ⟨v', hv', rest, hrest⟩ := hextends x old hold
    obtain rfl := Option.some.inj (hv.symm.trans hv')
    rw [← hrest, mem_append] at hw
    simpa [mergeStart, hold, ← hrest] using hw

theorem mergeVar_nested (hvars : inner.vars = target.vars)
    (hbs : ∀ b ∈ bs, inner.Extends b ∧ ∀ v ∈ b.vars, v.Coherent) (hne : bs ≠ []) (x : String) :
    target.mergeVar (as ++ [inner.merge bs]) x = target.mergeVar (as ++ bs) x := by
  rw [mergeVar_eq, mergeVar_eq, copies_append, copies_append, anyLacks_append, anyLacks_append]
  by_cases hx : inner.var? x = none ∧ ∀ b ∈ bs, b.var? x = none
  · -- Nobody knows the variable: the inner merge lacks it as its arms do.
    obtain ⟨b, hb⟩ := exists_mem_of_ne_nil bs hne
    have hmerged : (inner.merge bs).var? x = none := by rw [var?_merge, if_pos hx]
    have hcopies : copies bs x = [] := filterMap_eq_nil_iff.mpr hx.2
    have hlacks : anyLacks bs x = true := any_eq_true.mpr ⟨b, hb, by simp [hx.2 b hb]⟩
    rw [hcopies, hlacks]
    simp [copies, anyLacks, hmerged]
  · have hmerged : (inner.merge bs).var? x = some (inner.mergeVar bs x) := by rw [var?_merge, if_neg hx]
    have hcopy : copies [inner.merge bs] x = [inner.mergeVar bs x] := by simp [copies, hmerged]
    have hlacks : anyLacks [inner.merge bs] x = false := by simp [anyLacks, hmerged]
    have hstart : target.mergeStart x (copies as x ++ [inner.mergeVar bs x]) =
        target.mergeStart x (copies as x ++ copies bs x) := by
      cases hv : target.var? x with
      | some v => simp [mergeStart, hv]
      | none =>
        have hinner : inner.var? x = none := (var?_congr hvars x).trans hv
        cases copies as x with
        | cons a as => simp [mergeStart, hv]
        | nil => simp [mergeStart, hv, mergeVar_eq, hinner, Variable.mergeCopies]
    rw [hcopy, hlacks, hstart, mergeVar_eq, Bool.or_false]
    refine Variable.mergeCopies_nested (startsLike_mergeStart hvars x _ _) ?_ ?_
    · intro v hv w hw
      obtain ⟨b, hb, hv⟩ := mem_copies.mp hv
      rw [← (startsLike_mergeStart hvars x _ (copies bs x)).history]
      exact live_of_extends (hbs b hb).1 (hbs b hb).2 hv _ hw
    · intro hnil
      obtain ⟨b, hb⟩ := exists_mem_of_ne_nil bs hne
      exact any_eq_true.mpr ⟨b, hb, by simp [filterMap_eq_nil_iff.mp hnil b hb]⟩

/-- Arms that are merged into a copy of the target, and the copy into the target, come out as if all had
been merged into the target. -/
theorem vars_merge_nested (hvars : inner.vars = target.vars)
    (hbs : ∀ b ∈ bs, inner.Extends b ∧ ∀ v ∈ b.vars, v.Coherent) (hne : bs ≠ []) :
    (target.merge (as ++ [inner.merge bs])).vars = (target.merge (as ++ bs)).vars := by
  have hinner : (inner.merge bs).vars.map (·.name) =
      Firsts.keep id (target.vars.map (·.name) ++ bs.flatMap fun b => b.vars.map (·.name)) := by
    rw [merge, map_map, ← firstOccurrences_eq, hvars]
    exact (map_congr_left fun x _ => mergeVar_name inner bs x).trans (map_id _)
  have hnames : firstOccurrences (target.vars.map (·.name) ++
        (as ++ [inner.merge bs]).flatMap fun b => b.vars.map (·.name)) =
      firstOccurrences (target.vars.map (·.name) ++ (as ++ bs).flatMap fun b => b.vars.map (·.name)) := by
    rw [firstOccurrences_eq, firstOccurrences_eq, flatMap_append, flatMap_append,
      flatMap_singleton, hinner, ← append_assoc, Firsts.keep_append_keep]
    refine (Firsts.keep_append_known (fun x hx => ?_) _).trans (by rw [append_assoc])
    exact Firsts.known_of_mem (mem_append_left _ hx)
  have hmerge : target.mergeVar (as ++ [inner.merge bs]) = target.mergeVar (as ++ bs) :=
    funext (mergeVar_nested hvars hbs hne)
  change (firstOccurrences _).map (target.mergeVar _) = (firstOccurrences _).map (target.mergeVar _)
  rw [hnames, hmerge]

theorem merge_perm {made : List Write} (target : Scope) (hperm : as.Perm bs)
    (has : ∀ a ∈ as, a.Accounted made) (x : String) :
    Option.Rel Variable.Resembles ((target.merge as).var? x) ((target.merge bs).var? x) := by
  have hlacks : anyLacks as x = anyLacks bs x := by
    rw [Bool.eq_iff_iff]
    simp [anyLacks, hperm.mem_iff]
  have hcopies : ∀ v ∈ copies as x, v.Accounted made := by
    intro v hv
    obtain ⟨a, ha, hv⟩ := mem_copies.mp hv
    exact has a ha v (mem_of_var? hv)
  simp only [var?_merge, hperm.mem_iff]
  split
  · exact .none
  · rw [mergeVar_eq, mergeVar_eq, hlacks]
    exact .some (Variable.mergeCopies_perm (startsLike_mergeStart rfl x _ _) (hperm.filterMap _) hcopies _)

end Scope

namespace Arena

/-- The arena `b` has the places of `a`, and on these nothing but what stands there in `a`, unless it is the
scope `changed`. -/
structure Follows (a : Arena) (changed : Option Handle) (b : Arena) : Prop where
  places : a.scopes.size ≤ b.scopes.size
  scopes : ∀ h sc, b.scope? h = some sc →
    h = (a.scopes.size : Nat) ∨ a.scope? h = some sc ∨ changed = some h ∧ a.isLive h

namespace Follows

variable {a b : Arena} {changed : Option Handle}

theorem refl (a : Arena) (changed : Option Handle) : a.Follows changed a where
  places := Nat.le_refl _
  scopes _ _ hsc := .inr (.inl hsc)

theorem add (parent : Option Handle) (side : BranchSide) (vars : List Variable) :
    a.Follows changed (a.add parent side vars).2 where
  places := by simp [Arena.add]
  scopes h sc hsc := by
    rw [scope?_add] at hsc
    split at hsc
    · exact .inl ‹_›
    · exact .inr (.inl hsc)

theorem put (ha : a.Placed) {h : Handle} {sc sc' : Scope} (hsc : a.scope? h = some sc)
    (hhandle : sc'.handle = sc.handle) : a.Follows (some h) (a.put sc') where
  places := Nat.le_of_eq (size_put a sc').symm
  scopes k _ hk := by
    rcases scope?_put_cases k hk with rfl | hk
    · rw [hhandle, ha h sc hsc]
      exact .inr (.inr ⟨rfl, by simp [isLive, hsc]⟩)
    · exact .inr (.inl hk)

theorem foldl_discard (ks : List Handle) (h : a.Follows changed b) : a.Follows changed (ks.foldl discard b) where
  places := (size_foldl_discard ks b).symm ▸ h.places
  scopes k sc hk := by
    rw [scope?_foldl_discard] at hk
    split at hk
    · cases hk
    · exact h.scopes k sc hk

theorem counted (h : a.Follows changed b) (n : Nat) : a.Follows changed { b with nextWrite := n } :=
  ⟨h.places, h.scopes⟩

end Follows

def Op.changed? : Op → Option Handle
  | newRoot | branch .. | discard _ | make .. => none
  | merge h _ | write h .. | join h .. | read h .. | set h .. => some h

namespace Session

variable {s t : Session} {ops : List Op} {p k : Handle}

def scopeAt (s : Session) (h : Handle) : Scope := (s.arena.scope? h).getD ⟨h, none, .neutral, []⟩

theorem run_append (ops later : List Op) :
    run (ops ++ later) = later.foldl (fun s op => (s.step op).2) (run ops) :=
  foldl_append

theorem scope?_of_live {h : Handle} (hh : s.arena.isLive h) : s.arena.scope? h = some (s.scopeAt h) := by
  obtain ⟨sc, hsc⟩ := Option.isSome_iff_exists.mp hh
  simp [scopeAt, hsc]

theorem step_merge (hs : s.Sound) (p : Handle) (ks : List Handle) (hlive : ∀ h ∈ p :: ks, s.arena.isLive h) :
    (s.step (.merge p ks)).1 = .ok () ∧ ∀ h, (s.step (.merge p ks)).2.arena.scope? h =
      if h ∈ ks then none
      else if h = p then some ((s.scopeAt p).merge (ks.map s.scopeAt)) else s.arena.scope? h := by
  have hp := scope?_of_live (hlive p mem_cons_self)
  have harms : List.Forall₂ (fun k arm => s.arena.scope? k = some arm) ks (ks.map s.scopeAt) := by
    rw [List.forall₂_map_right_iff, List.forall₂_same]
    exact fun k hk => scope?_of_live (hlive k (mem_cons_of_mem _ hk))
  have hstep : s.step (.merge p ks) = (.ok (),
      ⟨ks.foldl Arena.discard (s.arena.put ((s.scopeAt p).merge (ks.map s.scopeAt))), s.made⟩) := by
    simp [step, perform, merge_eq hp harms, bind, Except.bind, pure, Except.pure]
  rw [hstep]
  exact ⟨rfl, scope?_merge hs.placed hp ks _⟩

/-- A merge in two steps, the arms `bs` into a copy `f` of the target first. -/
theorem step_merge_nested (hs : s.Sound) {p f : Handle} {as bs : List Handle}
    (hvars : (s.scopeAt f).vars = (s.scopeAt p).vars)
    (hextends : ∀ b ∈ bs, (s.scopeAt f).Extends (s.scopeAt b)) (hne : bs ≠ [])
    (hlive : ∀ h ∈ p :: f :: (as ++ bs), s.arena.isLive h) (hnodup : (p :: f :: (as ++ bs)).Nodup) :
    (s.step (.merge f bs)).1 = .ok () ∧
    ((s.step (.merge f bs)).2.step (.merge p (as ++ [f]))).1 = .ok () ∧
    (s.step (.merge p (as ++ bs))).1 = .ok () ∧
    ∃ nested flat, ((s.step (.merge f bs)).2.step (.merge p (as ++ [f]))).2.arena.scope? p = some nested ∧
      (s.step (.merge p (as ++ bs))).2.arena.scope? p = some flat ∧ nested.vars = flat.vars := by
  have hlivebs : ∀ b ∈ bs, s.arena.isLive b := fun b hb => hlive b (by simp [hb])
  have harms : ∀ arm ∈ bs.map s.scopeAt, (s.scopeAt f).Extends arm ∧ ∀ v ∈ arm.vars, v.Coherent := by
    intro arm harm
    obtain ⟨b, hb, rfl⟩ := mem_map.mp harm
    exact ⟨hextends b hb, fun v hv => (hs.accounted b _ (scope?_of_live (hlivebs b hb)) v hv).toCoherent⟩
  simp only [nodup_cons, mem_cons, mem_append, not_or] at hnodup
  obtain ⟨⟨hpf, hpas, hpbs⟩, ⟨hfas, hfbs⟩, hasbs⟩ := hnodup
  obtain ⟨hinner, hafter⟩ := step_merge hs f bs (by simpa [hlive f (by simp)] using hlivebs)
  obtain ⟨hflat, hafterFlat⟩ := step_merge hs p (as ++ bs) fun h hh =>
    hlive h ((sublist_cons_self f _).cons_cons p |>.subset hh)
  have hsound := hs.step (.merge f bs)
  generalize (s.step (.merge f bs)).2 = t at hafter hsound ⊢
  -- The inner merge leaves the target and the other arms as they are.
  have hp : t.arena.scope? p = some (s.scopeAt p) := by
    rw [hafter, if_neg hpbs, if_neg hpf, scope?_of_live (hlive p (by simp))]
  have hf : t.arena.scope? f = some ((s.scopeAt f).merge (bs.map s.scopeAt)) := by
    rw [hafter, if_neg hfbs, if_pos rfl]
  have has : ∀ a ∈ as, t.arena.scope? a = some (s.scopeAt a) := by
    intro a ha
    have habs : a ∉ bs := fun hb => (nodup_append.mp hasbs).2.2 a ha a hb rfl
    have haf : a ≠ f := fun he => hfas (he ▸ ha)
    rw [hafter, if_neg habs, if_neg haf, scope?_of_live (hlive a (by simp [ha]))]
  have hliveOuter : ∀ h ∈ p :: (as ++ [f]), t.arena.isLive h := by
    intro h hh
    simp only [mem_cons, mem_append, not_mem_nil, or_false] at hh
    rcases hh with rfl | hh | rfl
    · simp [isLive, hp]
    · simp [isLive, has h hh]
    · simp [isLive, hf]
  obtain ⟨houter, hafterOuter⟩ := step_merge hsound p (as ++ [f]) hliveOuter
  have hmap : (as ++ [f]).map t.scopeAt =
      as.map s.scopeAt ++ [(s.scopeAt f).merge (bs.map s.scopeAt)] := by
    have hat : as.map t.scopeAt = as.map s.scopeAt :=
      map_congr_left fun a ha => by rw [scopeAt, has a ha, Option.getD_some]
    simp [hat, scopeAt, hf]
  refine ⟨hinner, houter, hflat, (s.scopeAt p).merge (as.map s.scopeAt ++ _), _, ?_, ?_,
    Scope.vars_merge_nested hvars harms (by simpa using hne)⟩
  · rw [hafterOuter, if_neg (by simp [hpas, hpf]), if_pos rfl, hmap, scopeAt, hp, Option.getD_some]
  · rw [hafterFlat, if_neg (by simp [hpas, hpbs]), if_pos rfl, map_append]

theorem follows_perform (hs : s.Sound) {op : Op} (hlive : ∀ h ∈ op.handles, s.arena.isLive h)
    (ht : s.perform op = .ok t) : s.arena.Follows op.changed? t.arena := by
  have hput : ∀ {h : Handle} (name : String) (f : Variable → Variable), s.arena.isLive h →
      s.arena.Follows (some h) (s.arena.put ((s.scopeAt h).updateVar name f)) := fun name f hh =>
    .put hs.placed (scope?_of_live hh) rfl
  cases op with
  | newRoot => cases ht; exact .add none .neutral []
  | branch p side =>
    have hp := scope?_of_live (hlive p (by simp [Op.handles]))
    simp only [perform, branch_eq hp, bind, Except.bind, pure, Except.pure, Except.ok.injEq] at ht
    exact ht ▸ .add (some p) side (s.scopeAt p).vars
  | discard h => cases ht; exact .foldl_discard [h] (.refl s.arena none)
  | merge p ks =>
    have hp := scope?_of_live (hlive p (by simp [Op.handles]))
    rcases mapM_get_cases s.arena ks with ⟨arms, harms⟩ | ⟨k, hk, hdead, -⟩
    · simp only [perform, merge_eq hp harms, bind, Except.bind, pure, Except.pure, Except.ok.injEq] at ht
      exact ht ▸ .foldl_discard ks (.put hs.placed hp rfl)
    · simp [hlive k (by simp [Op.handles, hk])] at hdead
  | make type value range => cases ht; exact .counted (.refl s.arena none) _
  | write h name type value range =>
    have hh := hlive h (by simp [Op.handles])
    simp only [perform, write_eq (scope?_of_live hh), bind, Except.bind, pure, Except.pure, Except.ok.injEq] at ht
    exact ht ▸ (hput name _ hh).counted _
  | join h name | read h name | set h name =>
    have hh := hlive h (by simp [Op.handles])
    simp only [perform, updateVar_eq (scope?_of_live hh), bind, Except.bind, pure, Except.pure, Except.ok.injEq] at ht
    exact ht ▸ hput name _ hh

theorem follows_step (hs : s.Sound) (op : Op) : s.arena.Follows op.changed? (s.step op).2.arena := by
  rcases step_cases hs op with ⟨hlive, -, -⟩ | ⟨k, -, -, herr⟩
  · obtain ⟨t, ht, -⟩ := perform_of_live hs hlive
    rw [show (s.step op).2 = t by simp [step, ht]]
    exact follows_perform hs hlive ht
  · rw [herr]
    exact .refl s.arena _

theorem step_place (hs : s.Sound) (op : Op) {i : Nat} (hi : i < s.arena.scopes.size) {sc' : Scope}
    (hsc' : (s.step op).2.arena.scope? i = some sc') :
    ∃ sc, s.arena.scope? i = some sc ∧ sc.Extends sc' ∧ (op.changed? ≠ some (i : Handle) → sc' = sc) := by
  rcases (follows_step hs op).scopes i sc' hsc' with h | h | ⟨hchanged, hlive⟩
  · exact absurd (Int.ofNat_inj.mp h) (Nat.ne_of_lt hi)
  · exact ⟨sc', h, .rfl sc', fun _ => rfl⟩
  · have hsc := scope?_of_live hlive
    refine ⟨_, hsc, ?_, fun hne => absurd hchanged hne⟩
    rcases step_cases hs op with ⟨-, -, hmoves⟩ | ⟨k, -, -, herr⟩
    · exact (hmoves.arises i sc' hsc').extends hsc
    · rw [herr] at hsc'
      exact Option.some.inj (hsc.symm.trans hsc') ▸ .rfl _

/-- Whatever is done, a scope that lives on keeps its histories, and it is as it was if no operation has
changed it. Its handle is not given to another. -/
theorem foldl_place (ops : List Op) (hs : s.Sound) {i : Nat} (hi : i < s.arena.scopes.size) {sc' : Scope}
    (hsc' : (ops.foldl (fun s op => (s.step op).2) s).arena.scope? i = some sc') :
    ∃ sc, s.arena.scope? i = some sc ∧ sc.Extends sc' ∧
      ((∀ op ∈ ops, op.changed? ≠ some (i : Handle)) → sc' = sc) := by
  induction ops generalizing s with
  | nil => exact ⟨sc', hsc', .rfl sc', fun _ => rfl⟩
  | cons op ops ih =>
    have hi' := Nat.lt_of_lt_of_le hi (follows_step hs op).places
    obtain ⟨mid, hmid, hextends', hsame'⟩ := ih (hs.step op) hi' hsc'
    obtain ⟨sc, hsc, hextends, hsame⟩ := step_place hs op hi hmid
    refine ⟨sc, hsc, hextends.trans hextends', fun hidle => ?_⟩
    rw [hsame' fun o ho => hidle o (mem_cons_of_mem _ ho), hsame (hidle op mem_cons_self)]

/-- The operations have made `k` a branch of `p`, and have not changed the scopes `idle` after that. -/
def Branched (ops : List Op) (p k : Handle) (idle : List Handle) : Prop :=
  ∃ before side after, ops = before ++ .branch p side :: after ∧ (run before).arena.isLive p ∧
    k = ((run before).arena.scopes.size : Nat) ∧ ∀ op ∈ after, ∀ h ∈ idle, op.changed? ≠ some h

/-- A branch extends the scope that it was made from, if that one has been idle. It has the same variables
if it has been idle itself. -/
theorem Branched.extends {idle : List Handle} (h : Branched ops p k idle) (hpidle : p ∈ idle)
    (hp : (run ops).arena.isLive p) (hk : (run ops).arena.isLive k) :
    ((run ops).scopeAt p).Extends ((run ops).scopeAt k) ∧
      (k ∈ idle → ((run ops).scopeAt k).vars = ((run ops).scopeAt p).vars) := by
  obtain ⟨before, side, after, rfl, hparent, rfl, hidle⟩ := h
  have hs := sound_run before
  have hpar := scope?_of_live hparent
  obtain ⟨i, rfl, hi⟩ := exists_place hpar
  have hisize : i < (run before).arena.scopes.size := (Array.getElem?_eq_some_iff.mp hi).1
  have hstep : ((run before).step (.branch i side)).2.arena =
      ((run before).arena.add (some i) side ((run before).scopeAt i).vars).2 := by
    simp [step, perform, branch_eq hpar, bind, Except.bind, pure, Except.pure]
  have hrun : run (before ++ .branch i side :: after) =
      after.foldl (fun s op => (s.step op).2) ((run before).step (.branch i side)).2 :=
    run_append before _
  have hsize : ((run before).step (.branch i side)).2.arena.scopes.size = (run before).arena.scopes.size + 1 := by
    rw [hstep]
    simp [Arena.add]
  have hp := scope?_of_live hp
  have hk := scope?_of_live hk
  generalize (run (before ++ .branch i side :: after)).scopeAt i = source at hp ⊢
  generalize (run (before ++ .branch i side :: after)).scopeAt ((run before).arena.scopes.size : Nat) = arm at hk ⊢
  rw [hrun] at hp hk
  obtain ⟨source', hsource', -, hsame⟩ := foldl_place after (hs.step _) (by omega) hp
  obtain ⟨arm', harm', hextends, hsame'⟩ := foldl_place after (hs.step _) (by omega) hk
  rw [hstep, scope?_add] at hsource' harm'
  rw [if_neg (fun h => Nat.ne_of_lt hisize (Int.ofNat_inj.mp h)), hpar] at hsource'
  rw [if_pos rfl] at harm'
  obtain rfl := Option.some.inj hsource'
  obtain rfl := Option.some.inj harm'
  rw [hsame fun op hop => hidle op hop i hpidle]
  exact ⟨hextends, fun hkidle => by rw [hsame' fun op hop => hidle op hop _ hkidle]⟩

/-- Let `f` be a branch of `p`, neither of which has been changed since, and let `bs` be branches of `f` on
which anything may have happened, as on the scopes `as`. Then merging `bs` into `f` and afterwards `as` and
`f` into `p` succeeds and leaves `p` with the variables that it has after `as` and `bs` have been merged
into it at once: the same ones in the same order, in all that is known of them. -/
theorem vars_nested_merge_eq_flat_merge (ops : List Op) {p f : Handle} (as : List Handle) {bs : List Handle}
    (hf : Branched ops p f [p, f]) (hbs : ∀ b ∈ bs, Branched ops f b [f]) (hne : bs ≠ [])
    (hlive : ∀ h ∈ p :: f :: (as ++ bs), (run ops).arena.isLive h) (hnodup : (p :: f :: (as ++ bs)).Nodup) :
    ((run ops).step (.merge f bs)).1 = .ok () ∧
    (((run ops).step (.merge f bs)).2.step (.merge p (as ++ [f]))).1 = .ok () ∧
    ((run ops).step (.merge p (as ++ bs))).1 = .ok () ∧
    ∃ nested flat,
      (((run ops).step (.merge f bs)).2.step (.merge p (as ++ [f]))).2.arena.scope? p = some nested ∧
      ((run ops).step (.merge p (as ++ bs))).2.arena.scope? p = some flat ∧ nested.vars = flat.vars := by
  have hlivef : (run ops).arena.isLive f := hlive f (by simp)
  have hvars := (hf.extends (by simp) (hlive p (by simp)) hlivef).2 (by simp)
  have hextends : ∀ b ∈ bs, ((run ops).scopeAt f).Extends ((run ops).scopeAt b) := fun b hb =>
    ((hbs b hb).extends (by simp) hlivef (hlive b (by simp [hb]))).1
  exact step_merge_nested (sound_run ops) hvars hextends hne hlive hnodup

/-- A scope with the branches `1` and `2`, and the second of these with the branches `3` and `4`, in which
variables are written and read and one is reported as unknown. -/
def branchesOfBranch : List Op :=
  [.newRoot, .write 0 "a" (.single (.primitive .int)) none none, .branch 0 .onTrue, .branch 0 .onFalse,
    .branch 2 .onTrue, .branch 2 .onFalse, .write 1 "a" (.single (.primitive .string)) none none,
    .read 3 "a" none, .write 3 "b" (.single (.primitive .int)) none none,
    .write 4 "a" (.single (.primitive .null)) none none, .set 4 "b" (.reportedUnknown true)]

theorem nested_merge_of_branchesOfBranch :
    Branched branchesOfBranch 0 2 [0, 2] ∧ (∀ b ∈ [3, 4], Branched branchesOfBranch 2 b [2]) ∧
    ∃ nested flat,
      (((run branchesOfBranch).step (.merge 2 [3, 4])).2.step (.merge 0 [1, 2])).2.arena.scope? 0 = some nested ∧
      ((run branchesOfBranch).step (.merge 0 [1, 3, 4])).2.arena.scope? 0 = some flat ∧
      nested.vars = flat.vars := by
  have hf : Branched branchesOfBranch 0 2 [0, 2] :=
    ⟨branchesOfBranch.take 3, .onFalse, branchesOfBranch.drop 4, rfl, by decide, by decide, by decide⟩
  have hbs : ∀ b ∈ [3, 4], Branched branchesOfBranch 2 b [2] := by
    rw [forall_mem_cons, forall_mem_singleton]
    exact ⟨⟨branchesOfBranch.take 4, .onTrue, branchesOfBranch.drop 5, rfl, by decide, by decide, by decide⟩,
      branchesOfBranch.take 5, .onFalse, branchesOfBranch.drop 6, rfl, by decide, by decide, by decide⟩
  exact ⟨hf, hbs, (vars_nested_merge_eq_flat_merge branchesOfBranch [1] hf hbs (by decide) (by decide)
    (by decide)).2.2.2⟩

/-- Whatever has been done before, the order in which live scopes are merged into another one does not
matter for the writes, reads and references of any variable. -/
theorem merge_resembles_merge_of_perm (ops : List Op) {p : Handle} {ks ks' : List Handle}
    (hperm : ks.Perm ks') (hlive : ∀ h ∈ p :: ks, (run ops).arena.isLive h) (hp : p ∉ ks) :
    ((run ops).step (.merge p ks)).1 = .ok () ∧ ((run ops).step (.merge p ks')).1 = .ok () ∧
    ∃ sc sc', ((run ops).step (.merge p ks)).2.arena.scope? p = some sc ∧
      ((run ops).step (.merge p ks')).2.arena.scope? p = some sc' ∧
      ∀ x, Option.Rel Variable.Resembles (sc.var? x) (sc'.var? x) := by
  have hs := sound_run ops
  have hlive' : ∀ h ∈ p :: ks', (run ops).arena.isLive h := fun h hh => hlive h ((hperm.cons p).mem_iff.mpr hh)
  obtain ⟨hok, hafter⟩ := step_merge hs p ks hlive
  obtain ⟨hok', hafter'⟩ := step_merge hs p ks' hlive'
  have harms : ∀ arm ∈ ks.map (run ops).scopeAt, arm.Accounted (run ops).made := by
    intro arm harm
    obtain ⟨k, hk, rfl⟩ := mem_map.mp harm
    exact hs.accounted k _ (scope?_of_live (hlive k (mem_cons_of_mem _ hk)))
  refine ⟨hok, hok', _, _, ?_, ?_, Scope.merge_perm ((run ops).scopeAt p) (hperm.map _) harms⟩
  · rw [hafter, if_neg hp, if_pos rfl]
  · rw [hafter', if_neg (fun h => hp (hperm.mem_iff.mpr h)), if_pos rfl]

theorem merge_of_branchesOfBranch_in_other_order :
    ([1, 3, 4] : List Handle).Perm [4, 1, 3] ∧ (∀ h ∈ [0, 1, 3, 4], (run branchesOfBranch).arena.isLive h) ∧
    ∃ sc sc', ((run branchesOfBranch).step (.merge 0 [1, 3, 4])).2.arena.scope? 0 = some sc ∧
      ((run branchesOfBranch).step (.merge 0 [4, 1, 3])).2.arena.scope? 0 = some sc' ∧
      ∀ x, Option.Rel Variable.Resembles (sc.var? x) (sc'.var? x) := by
  have hperm : ([1, 3, 4] : List Handle).Perm [4, 1, 3] := by decide
  have hlive : ∀ h ∈ [0, 1, 3, 4], (run branchesOfBranch).arena.isLive h := by decide +kernel
  exact ⟨hperm, hlive, (merge_resembles_merge_of_perm branchesOfBranch hperm hlive (by decide)).2.2⟩

end Session

end Arena

end PhpFlow
