import PhpFlow.Proofs.Conditions
import PhpFlow.Proofs.Histories

/-!
# How a variable stands

The type and the value of a variable depend on its writes, on the types that it was declared and documented
with, and on what a tested condition has left of its type. If the arms of a construct write nothing to it,
then merging them leaves it as it stood before, even where the arms have narrowed it.
-/
namespace PhpFlow

open List

open Write (ids)

/-- What the type and the value of a variable at a point of the program depend on. -/
structure Standing where
  trail : Trail
  commentType : Option TypeUnion
  declaredType : Option TypeUnion
  narrowed : Option TypeUnion

namespace Standing

def unknown : Standing := ⟨.empty, none, none, none⟩

def unnarrowed (s : Standing) : Standing := { s with narrowed := none }

def flowType (s : Standing) : Option TypeUnion :=
  s.narrowed <|> s.commentType <|>
    if s.trail.live.isEmpty then
      s.declaredType <|> s.commentType <|>
        if s.trail.history.isEmpty then none else some (.flatten (s.trail.history.map (·.type)))
    else
      let u := TypeUnion.flatten (s.trail.live.map (·.type))
      some (if s.trail.unwritten then u.union (.prim .null) else u)

def flowValue (s : Standing) : Option Value :=
  if s.trail.unwritten || s.narrowed.isSome then none else Value.common? (s.trail.live.map (·.value))

end Standing

namespace Variable

def standing (v : Variable) : Standing := ⟨v.trail, v.commentType, v.declaredType, v.narrowed⟩

theorem flowType_standing (v : Variable) : v.standing.flowType = v.flowType := by
  -- With a live write, being unwritten on some path is being partial.
  cases hl : v.live.isEmpty <;>
    simp [Standing.flowType, flowType, standing, trail, type, inferredType, hl]

theorem flowValue_standing (v : Variable) : v.standing.flowValue = v.flowValue := by
  cases hl : v.live with
  | nil => simp [Standing.flowValue, flowValue, standing, trail, hl, Value.common?]
  | cons w ws => simp [Standing.flowValue, flowValue, standing, trail, hl]

end Variable

namespace Scope

variable {sc sc' : Scope}

def standing (sc : Scope) (x : String) : Standing := ((sc.var? x).map Variable.standing).getD .unknown

theorem standing_trail (sc : Scope) (x : String) : (sc.standing x).trail = sc.trail x := by
  cases hv : sc.var? x <;> simp [standing, trail, hv, Variable.standing, Standing.unknown]

theorem flowType_standing (sc : Scope) (x : String) :
    (sc.standing x).flowType = (sc.var? x).bind Variable.flowType := by
  cases hv : sc.var? x with
  | none => simp [standing, hv, Standing.flowType, Standing.unknown, Trail.empty]
  | some v => simp [standing, hv, v.flowType_standing]

theorem flowValue_standing (sc : Scope) (x : String) :
    (sc.standing x).flowValue = (sc.var? x).bind Variable.flowValue := by
  cases hv : sc.var? x with
  | none => simp [standing, hv, Standing.flowValue, Standing.unknown, Trail.empty]
  | some v => simp [standing, hv, v.flowValue_standing]

theorem narrowed_standing (sc : Scope) (x : String) :
    (sc.standing x).narrowed = (sc.var? x).bind Variable.narrowed := by
  cases hv : sc.var? x with
  | none => simp [standing, hv, Standing.unknown]
  | some v => simp [standing, hv, Variable.standing]

theorem standing_congr (h : sc'.vars = sc.vars) (x : String) : sc'.standing x = sc.standing x := by
  simp [standing, var?, h]

/-- A change of a variable shows on another one not at all, and on itself as far as its standing changes. -/
theorem map_standing_updateVar {α : Type} {g : Standing → α} {f : Variable → Variable}
    (hname : ∀ v, (f v).name = v.name) {name x : String}
    (hf : x = name → ∀ v, g (f v).standing = g v.standing) :
    g ((sc.updateVar name f).standing x) = g (sc.standing x) := by
  unfold standing
  rw [var?_updateVar sc hname]
  by_cases hx : x = name
  · subst hx
    cases hv : sc.var? x with
    | none => simpa [Variable.standing, Variable.trail, Standing.unknown, Trail.empty] using hf rfl { name := x }
    | some v => simp [hf rfl]
  · simp [hx]

end Scope

namespace Trail

structure Coherent (t : Trail) : Prop where
  live : ∀ w ∈ t.live, w ∈ t.history
  nodup : (ids t.live).Nodup

/-- The live writes of arms that have all left them alone. -/
theorem distinct_flatMap_live {t : Trail} (h : t.Coherent) {arms : List Trail} (hne : arms ≠ [])
    (hsame : ∀ a ∈ arms, a = t) : Variable.distinct (arms.flatMap (·.live)) = t.live := by
  obtain ⟨a, rest, rfl⟩ := exists_cons_of_ne_nil hne
  obtain rfl := hsame a mem_cons_self
  have hrest : ∀ w ∈ rest.flatMap (·.live), Variable.knows a.live w = true := by
    intro w hw
    obtain ⟨b, hb, hw⟩ := mem_flatMap.mp hw
    rw [hsame b (mem_cons_of_mem _ hb)] at hw
    exact (Variable.knows_iff _ _).mpr ⟨w, hw, rfl⟩
  rw [Variable.distinct_eq, flatMap_cons, Firsts.keep_append, Firsts.keep_of_nodup h.nodup,
    Firsts.lacking_eq_nil hrest, append_nil]

/-- Arms that write nothing leave the trail as it was. -/
theorem merge_same {t : Trail} (h : t.Coherent) {arms : List Trail} (hne : arms ≠ [])
    (hsame : ∀ a ∈ arms, a = t) : t.merge arms = t := by
  have hnew : (arms.flatMap fun arm => arm.history.drop t.history.length) = [] := by
    refine flatMap_eq_nil_iff.mpr fun a ha => ?_
    rw [hsame a ha, drop_length]
  have hmissing : Variable.missingFrom t.history t.live = [] := by
    refine filter_eq_nil_iff.mpr fun w hw => ?_
    have hknown := (Variable.knows_iff t.history w).mpr ⟨w, h.live w (Variable.mem_of_mem_distinct hw), rfl⟩
    simp [hknown]
  have hunwritten : arms.any (·.unwritten) = t.unwritten := by
    obtain ⟨a, rest, rfl⟩ := exists_cons_of_ne_nil hne
    cases hu : t.unwritten with
    | true => simp [hsame a mem_cons_self, hu]
    | false => exact any_eq_false.mpr fun b hb => by simp [hsame b hb, hu]
  simp only [merge, distinct_flatMap_live h hne hsame, hnew, nil_append, hmissing, append_nil, hunwritten]

end Trail

namespace Scope

variable {sc : Scope} {arms : List Scope} {x : String}

/-- The types that a merged variable is declared, documented and narrowed with, if the arms have left it
alone: those of the target. -/
theorem mergeVar_types (harms : ∀ arm ∈ arms, (arm.standing x).unnarrowed = (sc.standing x).unnarrowed)
    (hhistory : (sc.mergeVar arms x).history = (sc.trail x).history) :
    (sc.mergeVar arms x).commentType = (sc.standing x).commentType ∧
      (sc.mergeVar arms x).declaredType = (sc.standing x).declaredType ∧
      (sc.mergeVar arms x).narrowed = (sc.standing x).narrowed := by
  have hcopies : ∀ v ∈ copies arms x, v.standing.unnarrowed = (sc.standing x).unnarrowed := by
    intro v hv
    obtain ⟨arm, harm, hv⟩ := mem_copies.mp hv
    simpa [standing, hv] using harms arm harm
  rw [mergeVar_eq] at hhistory ⊢
  have hadded := append_right_eq_self.mp (hhistory.trans (history_mergeStart sc x (copies arms x)).symm)
  -- The variable that the copies are merged into stands as the target does.
  have hstart : (sc.mergeStart x (copies arms x)).commentType = (sc.standing x).commentType ∧
      (sc.mergeStart x (copies arms x)).declaredType = (sc.standing x).declaredType ∧
      (sc.mergeStart x (copies arms x)).narrowed = (sc.standing x).narrowed := by
    cases hv : sc.var? x with
    | some v => simp [mergeStart, hv, standing, Variable.standing]
    | none =>
      have hstanding : sc.standing x = .unknown := by simp [standing, hv]
      rw [hstanding] at hcopies ⊢
      cases hc : copies arms x with
      | nil => simp [mergeStart, hv, Standing.unknown]
      | cons v vs =>
        have hdeclared : v.declaredType = none := congrArg Standing.declaredType (hcopies v (by simp [hc]))
        simp [mergeStart, hv, Standing.unknown, hdeclared]
  refine ⟨?_, hstart.2.1, ?_⟩
  · change (_ <|> (copies arms x).findSome? (·.commentType)) = _
    rw [hstart.1]
    cases hc : (sc.standing x).commentType with
    | some u => rfl
    | none =>
      refine findSome?_eq_none_iff.mpr fun v hv => ?_
      exact (congrArg Standing.commentType (hcopies v hv)).trans hc
  · rw [← hstart.2.2]
    exact if_pos (isEmpty_iff.mpr hadded)

/-- What the arms have left alone is as it was before them. What a condition has narrowed in an arm is
not narrowed after it. -/
theorem standing_merge (hne : arms ≠ []) (hcoherent : (sc.trail x).Coherent)
    (harms : ∀ arm ∈ arms, (arm.standing x).unnarrowed = (sc.standing x).unnarrowed) :
    (sc.merge arms).standing x = sc.standing x := by
  have htrails : ∀ t ∈ arms.map (·.trail x), t = sc.trail x := by
    intro t ht
    obtain ⟨arm, harm, rfl⟩ := mem_map.mp ht
    have h := congrArg Standing.trail (harms arm harm)
    rwa [Standing.unnarrowed, Standing.unnarrowed, standing_trail, standing_trail] at h
  have htrail : (sc.mergeVar arms x).trail = sc.trail x := by
    rw [trail_mergeVar sc hne, Trail.merge_same hcoherent (by simpa using hne) htrails]
  unfold standing
  rw [var?_merge]
  split
  · next hnone => rw [hnone.1]
  · obtain ⟨hcomment, hdeclared, hnarrowed⟩ := mergeVar_types harms (congrArg Trail.history htrail)
    change (sc.mergeVar arms x).standing = sc.standing x
    rw [Variable.standing, htrail, hcomment, hdeclared, hnarrowed, ← standing_trail]

end Scope

end PhpFlow
