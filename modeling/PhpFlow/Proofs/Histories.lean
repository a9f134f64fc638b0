import PhpFlow.Proofs.Arena
import PhpFlow.Proofs.Trail

/-!
# Histories

Whatever is done to an arena, one operation after the other, its variables stay coherent: the live writes
are among all writes, no write is listed twice, and the counter agrees with the history. A history only
grows at its end. An operation on a scope that is not live fails, and nothing has changed then.
-/
namespace PhpFlow

open List

def Write.ids (ws : List Write) : List Nat := ws.map (·.id)

/-- The writes are among those that were made, where each stands at the place of its number. -/
def Write.Recorded (made ws : List Write) : Prop := ∀ w ∈ ws, made[w.id]? = some w

namespace Write

theorem ids_append (ws vs : List Write) : ids (ws ++ vs) = ids ws ++ ids vs := by
  simp [ids]

namespace Recorded

variable {made ws vs : List Write}

theorem nil : Recorded made [] := by simp [Recorded]

theorem append (hws : Recorded made ws) (hvs : Recorded made vs) : Recorded made (ws ++ vs) := by
  intro w hw
  rcases mem_append.mp hw with hw | hw
  · exact hws w hw
  · exact hvs w hw

variable (h : Recorded made ws)

include h

theorem subset (hsub : vs ⊆ ws) : Recorded made vs := fun w hw => h w (hsub hw)

theorem later (more : List Write) : Recorded (made ++ more) ws := by
  intro w hw
  have hw := h w hw
  rw [List.getElem?_append_left (List.getElem?_eq_some_iff.mp hw).1, hw]

theorem mem_of_mem_ids {w : Write} (hw : made[w.id]? = some w)
    (hid : w.id ∈ ids ws) : w ∈ ws := by
  obtain ⟨x, hx, hxw⟩ := List.mem_map.mp hid
  have hmade := h x hx
  rw [hxw, hw] at hmade
  exact Option.some.inj hmade ▸ hx

theorem eq_of_id : ∀ v ∈ ws, ∀ w ∈ ws, v.id = w.id → v = w := by
  intro v hv w hw hid
  have hmade := h v hv
  rw [hid, h w hw] at hmade
  exact (Option.some.inj hmade).symm

/-- The next number has not been given to any of them. -/
theorem length_notMem_ids : made.length ∉ ids ws := by
  intro hmem
  obtain ⟨w, hw, hid⟩ := List.mem_map.mp hmem
  have hlt := (List.getElem?_eq_some_iff.mp (h w hw)).1
  omega

end Recorded

end Write

namespace Variable

open Write (ids Recorded ids_append)

/-- The live writes are in the history, neither list has a write twice, and the counter is right. -/
structure Coherent (v : Variable) : Prop where
  live : ∀ w ∈ v.live, w ∈ v.history
  nodupHistory : (ids v.history).Nodup
  nodupLive : (ids v.live).Nodup
  count : v.writes = v.history.length

/-- A coherent variable whose writes were really made. -/
structure Accounted (made : List Write) (v : Variable) : Prop extends Coherent v where
  recorded : Recorded made v.history

theorem knows_iff_mem_ids (ws : List Write) (w : Write) : knows ws w = true ↔ w.id ∈ ids ws := by
  simp [knows, ids]

theorem nodup_ids_concat {ws : List Write} (h : (ids ws).Nodup) {w : Write} (hw : w.id ∉ ids ws) :
    (ids (ws ++ [w])).Nodup := by
  rw [ids_append, nodup_append]
  refine ⟨h, by simp [ids], ?_⟩
  intro i hi j hj hij
  obtain rfl : j = w.id := by simpa [ids] using hj
  exact hw (hij ▸ hi)

theorem nodup_distinct (ws : List Write) : (ids (distinct ws)).Nodup := Firsts.nodup_keep ws

theorem nodup_append_missingFrom {history : List Write} (h : (ids history).Nodup) (ws : List Write) :
    (ids (history ++ missingFrom history ws)).Nodup := by
  have hkeep : distinct (history ++ ws) = distinct history ++ missingFrom history ws := Firsts.keep_append _ _
  rw [distinct_eq history, Firsts.keep_of_nodup h] at hkeep
  exact hkeep ▸ nodup_distinct _

/-- A history has every write after those it lacks have been added. -/
theorem mem_ids_append_missingFrom (history : List Write) {ws : List Write} {w : Write} (hw : w ∈ ws) :
    w.id ∈ ids (history ++ missingFrom history ws) := by
  obtain ⟨x, hx, hid⟩ := exists_mem_distinct hw
  rw [← hid, ids_append, mem_append]
  by_cases hk : knows history x = true
  · exact .inl ((knows_iff_mem_ids history x).mp hk)
  · have hmissing : x ∈ missingFrom history ws := mem_filter.mpr ⟨hx, by simp [hk]⟩
    exact .inr (mem_map_of_mem hmissing)

namespace Accounted

variable {made : List Write} {v : Variable}

theorem fresh (hhistory : v.history = []) (hlive : v.live = []) (hcount : v.writes = 0) :
    v.Accounted made where
  live := by simp [hlive]
  nodupHistory := by simp [hhistory, ids]
  nodupLive := by simp [hlive, ids]
  count := by simp [hhistory, hcount]
  recorded := hhistory ▸ Recorded.nil

variable (h : v.Accounted made)

include h

theorem recordedLive : Recorded made v.live := h.recorded.subset h.live

theorem later (more : List Write) : v.Accounted (made ++ more) :=
  { h with recorded := h.recorded.later more }

theorem congr {v' : Variable} (hhistory : v'.history = v.history)
    (hlive : v'.live = v.live) (hcount : v'.writes = v.writes) : v'.Accounted made where
  live := by simpa [hhistory, hlive] using h.live
  nodupHistory := hhistory ▸ h.nodupHistory
  nodupLive := hlive ▸ h.nodupLive
  count := by simpa [hhistory, hcount] using h.count
  recorded := hhistory ▸ h.recorded

/-- A write that has just been made is new to the history. -/
theorem write {w : Write} (hw : w.id = made.length) : (v.write w).Accounted (made ++ [w]) where
  live := by simp [Variable.write]
  nodupHistory := nodup_ids_concat h.nodupHistory (hw ▸ h.recorded.length_notMem_ids)
  nodupLive := by simp [Variable.write, ids]
  count := by simp [Variable.write, h.count]
  recorded := by
    apply (h.recorded.later [w]).append
    intro x hx
    obtain rfl : x = w := by simpa using hx
    simp [hw]

/-- Whatever recorded writes are joined, the live ones end up in the history. -/
theorem join {liveSets : List (List Write)} {newWrites : List Write}
    (hlive : Recorded made liveSets.flatten) (hnew : Recorded made newWrites) (anyPartial : Bool) :
    (v.join liveSets newWrites anyPartial).Accounted made := by
  have hdistinct : Recorded made (distinct liveSets.flatten) :=
    hlive.subset fun _ => mem_of_mem_distinct
  have hhistory : Recorded made (v.join liveSets newWrites anyPartial).history :=
    h.recorded.append ((hnew.append hdistinct).subset fun _ => mem_of_mem_missingFrom)
  constructor
  · constructor
    · intro w hw
      apply hhistory.mem_of_mem_ids (hdistinct w hw)
      exact mem_ids_append_missingFrom v.history (mem_append_right newWrites hw)
    · exact nodup_append_missingFrom h.nodupHistory _
    · exact nodup_distinct _
    · simp [Variable.join, h.count]
  · exact hhistory

end Accounted

/-- What can be set of a variable without a write or a read. -/
inductive Attribute where
  | comment (type : Option TypeUnion)
  | declared (type : Option TypeUnion)
  | narrowed (type : Option TypeUnion)
  | default (value : Option Value)
  | isArgument (flag : Bool)
  | isPartial (flag : Bool)
  | reportedUnknown (flag : Bool)

def Attribute.set : Attribute → Variable → Variable
  | comment type, v => { v with commentType := type }
  | declared type, v => { v with declaredType := type }
  | narrowed type, v => { v with narrowed := type }
  | default value, v => { v with default := value }
  | isArgument flag, v => { v with isArgument := flag }
  | isPartial flag, v => { v with isPartial := flag }
  | reportedUnknown flag, v => { v with reportedUnknown := flag }

/-- A change of one variable: it keeps its name, its history grows at the end, and its writes stay
accounted for. -/
structure IsChange (made made' : List Write) (f : Variable → Variable) : Prop where
  name : ∀ v, (f v).name = v.name
  history : ∀ v, v.history <+: (f v).history
  accounted : ∀ v, v.Accounted made → (f v).Accounted made'

namespace IsChange

variable {made : List Write}

theorem write {w : Write} (hw : w.id = made.length) : IsChange made (made ++ [w]) (·.write w) where
  name _ := rfl
  history _ := prefix_append _ _
  accounted _ h := h.write hw

theorem join {liveSets : List (List Write)} {newWrites : List Write}
    (hlive : Recorded made liveSets.flatten) (hnew : Recorded made newWrites) (anyPartial : Bool) :
    IsChange made made (·.join liveSets newWrites anyPartial) where
  name _ := rfl
  history _ := prefix_append _ _
  accounted _ h := h.join hlive hnew anyPartial

theorem read (range : Option Range) : IsChange made made (·.read range) where
  name _ := rfl
  history _ := prefix_rfl
  accounted _ h := h.congr rfl rfl rfl

theorem set (a : Attribute) : IsChange made made a.set where
  name _ := by cases a <;> rfl
  history _ := by cases a <;> exact prefix_rfl
  accounted _ h := by cases a <;> exact h.congr rfl rfl rfl

end IsChange

end Variable

namespace Scope

open Write (Recorded)

def Accounted (made : List Write) (s : Scope) : Prop := ∀ v ∈ s.vars, v.Accounted made

variable {made made' : List Write}

theorem Accounted.updateVar {s : Scope} (h : s.Accounted made) {f : Variable → Variable}
    (hf : Variable.IsChange made made' f) (hlater : ∀ v : Variable, v.Accounted made → v.Accounted made')
    (name : String) : (s.updateVar name f).Accounted made' := by
  have hupdate : ∀ vs : List Variable, (∀ v ∈ vs, v.Accounted made) →
      ∀ v ∈ update f name vs, v.Accounted made' := by
    intro vs
    induction vs with
    | nil =>
      intro _ v hv
      obtain rfl : v = f { name } := by simpa [update] using hv
      exact hf.accounted _ (.fresh rfl rfl rfl)
    | cons x xs ih =>
      intro hvs v hv
      have hxs : ∀ v ∈ xs, v.Accounted made := fun v hv => hvs v (mem_cons_of_mem _ hv)
      by_cases hx : x.name = name
      · rw [update, if_pos hx] at hv
        rcases mem_cons.mp hv with rfl | hv
        · exact hf.accounted _ (hvs x mem_cons_self)
        · exact hlater _ (hxs v hv)
      · rw [update, if_neg hx] at hv
        rcases mem_cons.mp hv with rfl | hv
        · exact hlater _ (hvs _ mem_cons_self)
        · exact ih hxs v hv
  exact hupdate s.vars h

theorem mem_of_var? {s : Scope} {x : String} {v : Variable} (h : s.var? x = some v) : v ∈ s.vars :=
  mem_of_find?_eq_some h

theorem Accounted.mergeStart {target : Scope} (ht : target.Accounted made) (x : String) (vs : List Variable) :
    (target.mergeStart x vs).Accounted made := by
  cases hv : target.var? x with
  | none =>
    rw [Scope.mergeStart, hv]
    exact .fresh rfl rfl rfl
  | some v => simpa [Scope.mergeStart, hv] using ht v (mem_of_var? hv)

theorem Accounted.mergeVar {target : Scope} (ht : target.Accounted made) {arms : List Scope}
    (harms : ∀ arm ∈ arms, arm.Accounted made) (x : String) :
    (target.mergeVar arms x).Accounted made := by
  have hcopies : ∀ v ∈ copies arms x, v.Accounted made := by
    intro v hv
    obtain ⟨arm, harm, hv⟩ := mem_copies.mp hv
    exact harms arm harm v (mem_of_var? hv)
  have hlive : Recorded made ((copies arms x).map (·.live)).flatten := by
    intro w hw
    obtain ⟨v, hv, hw⟩ := mem_flatMap.mp hw
    exact (hcopies v hv).recordedLive w hw
  have hnew : ∀ n, Recorded made ((copies arms x).flatMap (·.history.drop n)) := by
    intro n w hw
    obtain ⟨v, hv, hw⟩ := mem_flatMap.mp hw
    exact (hcopies v hv).recorded w (mem_of_mem_drop hw)
  rw [mergeVar_eq]
  exact ((ht.mergeStart x _).join hlive (hnew _) false).congr rfl rfl rfl

theorem Accounted.merge {target : Scope} (ht : target.Accounted made) {arms : List Scope}
    (harms : ∀ arm ∈ arms, arm.Accounted made) : (target.merge arms).Accounted made := by
  intro v hv
  obtain ⟨x, -, rfl⟩ := List.mem_map.mp hv
  exact ht.mergeVar harms x

def Extends (s s' : Scope) : Prop :=
  ∀ x v, s.var? x = some v → ∃ v', s'.var? x = some v' ∧ v.history <+: v'.history

theorem Extends.rfl (s : Scope) : s.Extends s := fun _ v hv => ⟨v, hv, prefix_rfl⟩

theorem Extends.trans {s s' s'' : Scope} (h : s.Extends s') (h' : s'.Extends s'') : s.Extends s'' := by
  intro x v hv
  obtain ⟨v', hv', hprefix⟩ := h x v hv
  obtain ⟨v'', hv'', hprefix'⟩ := h' x v' hv'
  exact ⟨v'', hv'', hprefix.trans hprefix'⟩

theorem extends_updateVar (s : Scope) {f : Variable → Variable} (hf : Variable.IsChange made made' f)
    (name : String) : s.Extends (s.updateVar name f) := by
  intro x v hv
  rw [var?_updateVar s hf.name]
  by_cases hx : x = name
  · subst hx
    exact ⟨f v, by simp [hv], hf.history v⟩
  · exact ⟨v, by simp [hx, hv], prefix_rfl⟩

theorem extends_merge (target : Scope) (arms : List Scope) : target.Extends (target.merge arms) := by
  intro x v hv
  refine ⟨target.mergeVar arms x, by simp [var?_merge, hv], ?_⟩
  rw [mergeVar_eq, mergeStart, hv]
  exact prefix_append _ _

end Scope

namespace Arena

theorem get_of_not_live {a : Arena} {h : Handle} (hh : a.isLive h = false) :
    a.get h = .error (.deadScope h) := by
  have hnone : a.scope? h = none := by simpa [isLive] using hh
  simp [get, hnone]

/-- Either all handles have scopes, or the first that has none is reported. -/
theorem mapM_get_cases (a : Arena) (ks : List Handle) :
    (∃ ss, List.Forall₂ (fun k s => a.scope? k = some s) ks ss) ∨
      ∃ k ∈ ks, a.isLive k = false ∧ ks.mapM a.get = .error (.deadScope k) := by
  induction ks with
  | nil => exact .inl ⟨[], .nil⟩
  | cons k ks ih =>
    cases hk : a.scope? k with
    | none =>
      have hlive : a.isLive k = false := by simp [isLive, hk]
      exact .inr ⟨k, mem_cons_self, hlive,
        by simp [mapM_cons, get_of_not_live hlive, bind, Except.bind]⟩
    | some s =>
      rcases ih with ⟨ss, hss⟩ | ⟨d, hd, hlive, herr⟩
      · exact .inl ⟨s :: ss, .cons hk hss⟩
      · exact .inr ⟨d, mem_cons_of_mem _ hd, hlive,
          by simp [mapM_cons, get_of_scope? hk, herr, bind, Except.bind]⟩

/-- An arena with all writes that were ever made, each at the place of its number. -/
structure Session where
  arena : Arena
  made : List Write

/-- What can be done to an arena. Writes are handed over by their numbers. -/
inductive Op where
  | newRoot
  | branch (parent : Handle) (side : BranchSide)
  | discard (h : Handle)
  | merge (parent : Handle) (branches : List Handle)
  /-- Makes a write that no variable has yet. -/
  | make (type : TypeUnion) (value : Option Value) (range : Option Range)
  | write (h : Handle) (name : String) (type : TypeUnion) (value : Option Value) (range : Option Range)
  | join (h : Handle) (name : String) (liveSets : List (List Nat)) (newWrites : List Nat)
      (anyPartial : Bool)
  | read (h : Handle) (name : String) (range : Option Range)
  | set (h : Handle) (name : String) (a : Variable.Attribute)

namespace Session

def empty : Session := ⟨.empty, []⟩

def writes (s : Session) (ids : List Nat) : List Write := ids.filterMap (s.made[·]?)

def perform (s : Session) : Op → Except Fault Session
  | .newRoot => .ok { s with arena := s.arena.newRoot.2 }
  | .branch parent side => do
    let (_, a) ← s.arena.branch parent side
    return { s with arena := a }
  | .discard h => .ok { s with arena := s.arena.discard h }
  | .merge parent branches => do
    let a ← s.arena.merge parent branches
    return { s with arena := a }
  | .make type value range =>
    .ok ⟨{ s.arena with nextWrite := s.arena.nextWrite + 1 },
      s.made ++ [⟨s.arena.nextWrite, type, value, range⟩]⟩
  | .write h name type value range => do
    let (w, a) ← s.arena.write h name type value range
    return ⟨a, s.made ++ [w]⟩
  | .join h name liveSets newWrites anyPartial => do
    let a ← s.arena.updateVar h name
      (·.join (liveSets.map s.writes) (s.writes newWrites) anyPartial)
    return { s with arena := a }
  | .read h name range => do
    let a ← s.arena.updateVar h name (·.read range)
    return { s with arena := a }
  | .set h name t => do
    let a ← s.arena.updateVar h name t.set
    return { s with arena := a }

def step (s : Session) (op : Op) : Except Fault Unit × Session :=
  match s.perform op with
  | .ok t => (.ok (), t)
  | .error e => (.error e, s)

def run (ops : List Op) : Session := ops.foldl (fun s op => (s.step op).2) empty

end Session

def Op.handles : Op → List Handle
  | newRoot | discard _ | make .. => []
  | merge parent branches => parent :: branches
  | branch h _ | write h .. | join h .. | read h .. | set h .. => [h]

namespace Session

open Write (Recorded)

/-- Scopes know their handles, each write has its own number, and all variables are accounted for. -/
structure Sound (s : Session) : Prop where
  placed : s.arena.Placed
  numbered : s.arena.nextWrite = s.made.length
  recorded : Recorded s.made s.made
  accounted : ∀ h sc, s.arena.scope? h = some sc → sc.Accounted s.made

/-- How the scope under a handle can come out of one operation. -/
inductive Arises (s : Session) (made' : List Write) (h : Handle) : Scope → Prop where
  | kept {sc : Scope} : s.arena.scope? h = some sc → Arises s made' h sc
  | opened {sc : Scope} : s.arena.scope? h = none → sc.vars = [] → Arises s made' h sc
  | copied {sc src : Scope} {p : Handle} : s.arena.scope? h = none → s.arena.scope? p = some src →
      sc.vars = src.vars → Arises s made' h sc
  | changed {sc : Scope} {f : Variable → Variable} (name : String) : s.arena.scope? h = some sc →
      Variable.IsChange s.made made' f → Arises s made' h (sc.updateVar name f)
  | merged {sc : Scope} {arms : List Scope} : s.arena.scope? h = some sc →
      (∀ arm ∈ arms, ∃ k, s.arena.scope? k = some arm) → Arises s made' h (sc.merge arms)

/-- What an operation does that succeeds: at most one write is made, and each scope has arisen. -/
structure Moves (s t : Session) : Prop where
  placed : t.arena.Placed
  numbered : t.arena.nextWrite = t.made.length
  made : t.made = s.made ∨ ∃ w : Write, w.id = s.made.length ∧ t.made = s.made ++ [w]
  arises : ∀ h sc, t.arena.scope? h = some sc → s.Arises t.made h sc

variable {s t : Session}

theorem recorded_writes (hs : s.Sound) (ids : List Nat) : Recorded s.made (s.writes ids) := by
  apply hs.recorded.subset
  intro w hw
  obtain ⟨i, -, hi⟩ := mem_filterMap.mp hw
  exact mem_of_getElem? hi

theorem recorded_concat {made : List Write} (h : Recorded made made) {w : Write}
    (hw : w.id = made.length) : Recorded (made ++ [w]) (made ++ [w]) := by
  apply (h.later [w]).append
  intro x hx
  obtain rfl : x = w := by simpa using hx
  simp [hw]

namespace Moves

theorem add (hs : s.Sound) (parent : Option Handle) (side : BranchSide) {vars : List Variable}
    (hvars : vars = [] ∨ ∃ p src, s.arena.scope? p = some src ∧ vars = src.vars) :
    Moves s { s with arena := (s.arena.add parent side vars).2 } where
  placed := hs.placed.add _ _ _
  numbered := hs.numbered
  made := .inl rfl
  arises := by
    intro h sc hsc
    rw [scope?_add] at hsc
    split at hsc
    · next hh =>
      have hnone : s.arena.scope? h = none := hh ▸ scope?_size s.arena
      obtain rfl := Option.some.inj hsc
      rcases hvars with hvars | ⟨p, src, hp, hvars⟩
      · exact .opened hnone hvars
      · exact .copied hnone hp hvars
    · exact .kept hsc

theorem discard (hs : s.Sound) (h : Handle) : Moves s { s with arena := s.arena.discard h } where
  placed := hs.placed.discard h
  numbered := by simpa using hs.numbered
  made := .inl rfl
  arises := by
    intro k sc hsc
    rw [scope?_discard] at hsc
    split at hsc
    · cases hsc
    · exact .kept hsc

/-- A change of one variable, which may have made a write. -/
theorem put (hs : s.Sound) {h : Handle} {sc : Scope} (hsc : s.arena.scope? h = some sc) (name : String)
    {f : Variable → Variable} {made' : List Write} (hf : Variable.IsChange s.made made' f)
    (hmade : made' = s.made ∨ ∃ w : Write, w.id = s.made.length ∧ made' = s.made ++ [w]) :
    Moves s ⟨{ s.arena.put (sc.updateVar name f) with nextWrite := made'.length }, made'⟩ := by
  have hscope : ∀ k, ({ s.arena.put (sc.updateVar name f) with nextWrite := made'.length } : Arena).scope? k
      = if k = h then some (sc.updateVar name f) else s.arena.scope? k :=
    scope?_put_of_scope? hsc (hs.placed h sc hsc)
  constructor
  · exact hs.placed.put _
  · rfl
  · exact hmade
  · intro k sc' hk
    rw [hscope] at hk
    split at hk
    · next hkh =>
      obtain rfl := Option.some.inj hk
      exact .changed name (hkh ▸ hsc) hf
    · exact .kept hk

theorem merge (hs : s.Sound) {p : Handle} {target : Scope} (hp : s.arena.scope? p = some target)
    {ks : List Handle} {arms : List Scope}
    (harms : List.Forall₂ (fun k arm => s.arena.scope? k = some arm) ks arms) :
    Moves s { s with arena := ks.foldl Arena.discard (s.arena.put (target.merge arms)) } := by
  have hscope : ∀ k sc, (ks.foldl Arena.discard (s.arena.put (target.merge arms))).scope? k = some sc →
      (k = p ∧ sc = target.merge arms) ∨ s.arena.scope? k = some sc := by
    intro k sc hk
    rw [scope?_merge hs.placed hp] at hk
    by_cases hks : k ∈ ks
    · simp [hks] at hk
    · rw [if_neg hks] at hk
      by_cases hkp : k = p
      · exact .inl ⟨hkp, by simpa [hkp] using hk.symm⟩
      · exact .inr (by simpa [hkp] using hk)
  constructor
  · exact (hs.placed.put _).foldl_discard ks
  · simpa [nextWrite_foldl_discard] using hs.numbered
  · exact .inl rfl
  · intro k sc hk
    rcases hscope k sc hk with ⟨rfl, rfl⟩ | hk
    · refine .merged hp fun arm harm => ?_
      obtain ⟨i, hi, rfl⟩ := getElem_of_mem harm
      have hik : i < ks.length := harms.length_eq ▸ hi
      exact ⟨ks[i], (List.forall₂_iff_get.mp harms).2 i hik hi⟩
    · exact .kept hk

theorem make (hs : s.Sound) (type : TypeUnion) (value : Option Value) (range : Option Range) :
    Moves s ⟨{ s.arena with nextWrite := s.arena.nextWrite + 1 },
      s.made ++ [⟨s.arena.nextWrite, type, value, range⟩]⟩ where
  placed := hs.placed
  numbered := by simp [hs.numbered]
  made := .inr ⟨_, hs.numbered, rfl⟩
  arises _ _ h := .kept h

end Moves

theorem perform_of_live (hs : s.Sound) {op : Op} (hlive : ∀ h ∈ op.handles, s.arena.isLive h) :
    ∃ t, s.perform op = .ok t ∧ s.Moves t := by
  have hscope : ∀ h ∈ op.handles, ∃ sc, s.arena.scope? h = some sc := fun h hh =>
    Option.isSome_iff_exists.mp (hlive h hh)
  have hchange : ∀ {h : Handle} {sc : Scope}, s.arena.scope? h = some sc → ∀ (name : String)
      {f : Variable → Variable}, Variable.IsChange s.made s.made f →
      s.Moves { s with arena := s.arena.put (sc.updateVar name f) } := by
    intro h sc hsc name f hf
    have hmoves := Moves.put hs hsc name hf (.inl rfl)
    rwa [← hs.numbered, ← nextWrite_put s.arena (sc.updateVar name f)] at hmoves
  cases op with
  | newRoot => exact ⟨_, rfl, Moves.add hs none .neutral (.inl rfl)⟩
  | branch p side =>
    obtain ⟨sc, hsc⟩ := hscope p (by simp [Op.handles])
    exact ⟨_, by simp [perform, branch_eq hsc, bind, Except.bind, pure, Except.pure],
      Moves.add hs (some p) side (.inr ⟨p, sc, hsc, rfl⟩)⟩
  | discard h => exact ⟨_, rfl, Moves.discard hs h⟩
  | merge p ks =>
    obtain ⟨target, hp⟩ := hscope p (by simp [Op.handles])
    rcases mapM_get_cases s.arena ks with ⟨arms, harms⟩ | ⟨k, hk, hdead, -⟩
    · exact ⟨_, by simp [perform, merge_eq hp harms, bind, Except.bind, pure, Except.pure],
        Moves.merge hs hp harms⟩
    · simp [hlive k (by simp [Op.handles, hk])] at hdead
  | make type value range => exact ⟨_, rfl, Moves.make hs type value range⟩
  | write h name type value range =>
    obtain ⟨sc, hsc⟩ := hscope h (by simp [Op.handles])
    have hmoves := Moves.put hs hsc name (Variable.IsChange.write hs.numbered)
      (.inr ⟨⟨s.arena.nextWrite, type, value, range⟩, hs.numbered, rfl⟩)
    refine ⟨_, ?_, hmoves⟩
    simp [perform, write_eq hsc, bind, Except.bind, pure, Except.pure, hs.numbered]
  | join h name liveSets newWrites anyPartial =>
    obtain ⟨sc, hsc⟩ := hscope h (by simp [Op.handles])
    have hlive : Recorded s.made (liveSets.map s.writes).flatten := by
      intro w hw
      obtain ⟨ws, hws, hw⟩ := mem_flatten.mp hw
      obtain ⟨ids, -, rfl⟩ := List.mem_map.mp hws
      exact recorded_writes hs ids w hw
    refine ⟨_, ?_, hchange hsc name (.join hlive (recorded_writes hs newWrites) anyPartial)⟩
    simp [perform, updateVar_eq hsc, bind, Except.bind, pure, Except.pure]
  | read h name range =>
    obtain ⟨sc, hsc⟩ := hscope h (by simp [Op.handles])
    refine ⟨_, ?_, hchange hsc name (.read range)⟩
    simp [perform, updateVar_eq hsc, bind, Except.bind, pure, Except.pure]
  | set h name t =>
    obtain ⟨sc, hsc⟩ := hscope h (by simp [Op.handles])
    refine ⟨_, ?_, hchange hsc name (.set t)⟩
    simp [perform, updateVar_eq hsc, bind, Except.bind, pure, Except.pure]

/-- An operation that asks for a scope that is not live fails with the first such scope. -/
theorem perform_of_dead {op : Op} (hdead : ∃ h ∈ op.handles, s.arena.isLive h = false) :
    ∃ k ∈ op.handles, s.arena.isLive k = false ∧ s.perform op = .error (.deadScope k) := by
  obtain ⟨h, hh, hdead⟩ := hdead
  cases op with
  | newRoot | discard | make => simp [Op.handles] at hh
  | merge p ks =>
    cases hp : s.arena.scope? p with
    | none =>
      have hpd : s.arena.isLive p = false := by simp [isLive, hp]
      exact ⟨p, by simp [Op.handles], hpd,
        by simp [perform, Arena.merge, get_of_not_live hpd, bind, Except.bind]⟩
    | some target =>
      have hne : h ∈ ks := by
        rcases mem_cons.mp hh with rfl | hh
        · simp [isLive, hp] at hdead
        · exact hh
      rcases mapM_get_cases s.arena ks with ⟨arms, harms⟩ | ⟨k, hk, hkd, herr⟩
      · obtain ⟨i, hi, rfl⟩ := getElem_of_mem hne
        have harm := (List.forall₂_iff_get.mp harms).2 i hi (harms.length_eq ▸ hi)
        simp only [get_eq_getElem] at harm
        simp [isLive, harm] at hdead
      · exact ⟨k, by simp [Op.handles, hk], hkd,
          by simp [perform, Arena.merge, get_of_scope? hp, herr, bind, Except.bind]⟩
  | branch | write | join | read | set =>
    obtain rfl : h = _ := by simpa [Op.handles] using hh
    refine ⟨h, hh, hdead, ?_⟩
    simp [perform, Arena.branch, Arena.write, Arena.updateVar, get_of_not_live hdead, bind, Except.bind]

theorem Arises.accounted (hs : s.Sound) (hmoves : s.Moves t) {h : Handle} {sc : Scope}
    (hsc : s.Arises t.made h sc) : sc.Accounted t.made := by
  have hlater : ∀ v : Variable, v.Accounted s.made → v.Accounted t.made := by
    intro v hv
    rcases hmoves.made with hmade | ⟨w, -, hmade⟩
    · exact hmade ▸ hv
    · exact hmade ▸ hv.later [w]
  cases hsc with
  | kept hsc => exact fun v hv => hlater v (hs.accounted h sc hsc v hv)
  | opened _ hvars =>
    intro v hv
    simp [hvars] at hv
  | copied _ hsrc hvars => exact fun v hv => hlater v (hs.accounted _ _ hsrc v (hvars ▸ hv))
  | changed name hsc hf => exact (hs.accounted h _ hsc).updateVar hf hlater name
  | merged hsc harms =>
    have hold := (hs.accounted h _ hsc).merge fun arm harm =>
      let ⟨k, hk⟩ := harms arm harm
      hs.accounted k arm hk
    exact fun v hv => hlater v (hold v hv)

theorem Moves.sound (hs : s.Sound) (hmoves : s.Moves t) : t.Sound where
  placed := hmoves.placed
  numbered := hmoves.numbered
  recorded := by
    rcases hmoves.made with hmade | ⟨w, hw, hmade⟩
    · exact hmade ▸ hs.recorded
    · exact hmade ▸ recorded_concat hs.recorded hw
  accounted h sc hsc := (hmoves.arises h sc hsc).accounted hs hmoves

/-- A scope that was there before still has its variables and their histories. -/
theorem Arises.extends {made' : List Write} {h : Handle} {sc sc' : Scope}
    (hsc' : s.Arises made' h sc') (hsc : s.arena.scope? h = some sc) : sc.Extends sc' := by
  cases hsc' with
  | kept hk => exact Option.some.inj (hsc.symm.trans hk) ▸ Scope.Extends.rfl sc
  | opened hnone _ | copied hnone _ _ => simp [hnone] at hsc
  | changed name hk hf =>
    obtain rfl := Option.some.inj (hsc.symm.trans hk)
    exact Scope.extends_updateVar sc hf name
  | merged hk _ =>
    obtain rfl := Option.some.inj (hsc.symm.trans hk)
    exact Scope.extends_merge sc _

/-- One operation: it succeeds and moves on, or it fails at a scope that is not live. -/
theorem step_cases (hs : s.Sound) (op : Op) :
    ((∀ h ∈ op.handles, s.arena.isLive h) ∧ (s.step op).1 = .ok () ∧ s.Moves (s.step op).2) ∨
      ∃ k ∈ op.handles, s.arena.isLive k = false ∧ s.step op = (.error (.deadScope k), s) := by
  by_cases hlive : ∀ h ∈ op.handles, s.arena.isLive h
  · obtain ⟨t, ht, hmoves⟩ := perform_of_live hs hlive
    exact .inl ⟨hlive, by simp [step, ht], by simpa [step, ht] using hmoves⟩
  · have hdead : ∃ h ∈ op.handles, s.arena.isLive h = false := by simpa using hlive
    obtain ⟨k, hk, hkd, herr⟩ := perform_of_dead hdead
    exact .inr ⟨k, hk, hkd, by simp [step, herr]⟩

theorem Sound.step (hs : s.Sound) (op : Op) : (s.step op).2.Sound := by
  rcases step_cases hs op with ⟨-, -, hmoves⟩ | ⟨k, -, -, herr⟩
  · exact hmoves.sound hs
  · rwa [herr]

theorem sound_empty : empty.Sound where
  placed h sc hsc := by simp [empty, Arena.empty, scope?] at hsc
  numbered := rfl
  recorded := .nil
  accounted h sc hsc := by simp [empty, Arena.empty, scope?] at hsc

theorem sound_run (ops : List Op) : (run ops).Sound := by
  have hfold : ∀ s : Session, s.Sound → (ops.foldl (fun s op => (s.step op).2) s).Sound := by
    induction ops with
    | nil => exact fun _ hs => hs
    | cons op ops ih => exact fun s hs => ih _ (hs.step op)
  exact hfold empty sound_empty

/-- After any operations, every variable of every live scope is coherent. The next operation, whichever it
is, leaves each history that stays a beginning of the new one; it succeeds if the scopes it asks for are
live, and otherwise it fails with an internal fault and nothing has changed. Discarding a scope that is not
live does nothing. -/
theorem run_coherent_and_append_only (ops : List Op) :
    (∀ h sc, (run ops).arena.scope? h = some sc → ∀ v ∈ sc.vars, v.Coherent) ∧
    ∀ op : Op,
      (∀ h sc sc', (run ops).arena.scope? h = some sc →
        ((run ops).step op).2.arena.scope? h = some sc' → sc.Extends sc') ∧
      ((∀ h ∈ op.handles, (run ops).arena.isLive h) → ((run ops).step op).1 = .ok ()) ∧
      (∀ h ∈ op.handles, (run ops).arena.isLive h = false →
        ∃ k ∈ op.handles, (run ops).arena.isLive k = false ∧ (Fault.deadScope k).isInternal ∧
          (run ops).step op = (.error (.deadScope k), run ops)) ∧
      ∀ h, (run ops).arena.isLive h = false → (run ops).step (.discard h) = (.ok (), run ops) := by
  have hs := sound_run ops
  refine ⟨fun h sc hsc v hv => (hs.accounted h sc hsc v hv).toCoherent, fun op => ⟨?_, ?_, ?_, ?_⟩⟩
  · intro h sc sc' hsc hsc'
    rcases step_cases hs op with ⟨-, -, hmoves⟩ | ⟨k, -, -, herr⟩
    · exact (hmoves.arises h sc' hsc').extends hsc
    · rw [herr] at hsc'
      exact Option.some.inj (hsc.symm.trans hsc') ▸ Scope.Extends.rfl sc
  · intro hlive
    rcases step_cases hs op with ⟨-, hok, -⟩ | ⟨k, hk, hkd, -⟩
    · exact hok
    · simp [hlive k hk] at hkd
  · intro h hh hdead
    rcases step_cases hs op with ⟨hlive, -, -⟩ | ⟨k, hk, hkd, herr⟩
    · simp [hlive h hh] at hdead
    · exact ⟨k, hk, hkd, rfl, herr⟩
  · intro h hdead
    simp [Session.step, perform, Arena.discard, hdead]

end Session

end Arena

end PhpFlow
