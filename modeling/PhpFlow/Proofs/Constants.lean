import Mathlib.Logic.Relation
import PhpFlow.Proofs.Folding
import PhpFlow.Proofs.Reaching

/-!
# Constant propagation

An execution of loop-free code takes each branch either way and gives variables the values that
expressions evaluate to. The value that the analysis finds for a variable is the one that it has after
every execution: some live write is the last one on the execution, and all live writes agree.
-/
namespace PhpFlow

open List

open Relation (Comp)

variable {σ : State} {ρ : Env} {e : Expr}

/-- The expression may have the value: it evaluates to it, or to nothing that is known. -/
def Evaluates (σ : State) (ρ : Env) (e : Expr) (v : Value) : Prop :=
  (e.value (σ.inEnv ρ)).1 = .ok (some v) ∨ (e.value (σ.inEnv ρ)).1 = .ok none

def Stmt.isIdle : Stmt → Bool
  | .comment _ _ | .empty _ => true
  | .expression _ e => e.isTest
  | .echo _ es => es.all Expr.isTest
  | _ => false

mutual

/-- An execution of the statement takes the values of the variables from `ρ` to `ρ'`. -/
inductive Stmt.Runs (σ : State) : Stmt → Env → Env → Prop
  | idle {s : Stmt} {ρ : Env} (hs : s.isIdle) : Stmt.Runs σ s ρ ρ
  | assign {r r' r'' : Range} {x : String} {e : Expr} {v : Value} {ρ : Env} (he : Evaluates σ ρ e v) :
      Stmt.Runs σ (.expression r (.assign r' (.var r'' x) e false)) ρ ((x, v) :: ρ)
  | block {r : Range} {ss : List Stmt} {ρ ρ' : Env} (hss : BlockRuns σ ss ρ ρ') :
      Stmt.Runs σ (.block r ss) ρ ρ'
  | body {r : Range} {c : Expr} {b : Stmt} {eis : List ElseIf} {e : Option Else} {ρ ρ' : Env}
      (hb : Stmt.Runs σ b ρ ρ') : Stmt.Runs σ (.ifElse r c b eis e) ρ ρ'
  | elseIf {r r' : Range} {c c' : Expr} {b b' : Stmt} {eis : List ElseIf} {e : Option Else} {ρ ρ' : Env}
      (h : Stmt.Runs σ (.ifElse r' c' b' eis e) ρ ρ') :
      Stmt.Runs σ (.ifElse r c b (⟨r', c', b'⟩ :: eis) e) ρ ρ'
  | else_ {r r' : Range} {c : Expr} {b b' : Stmt} {ρ ρ' : Env} (hb : Stmt.Runs σ b' ρ ρ') :
      Stmt.Runs σ (.ifElse r c b [] (some ⟨r', b'⟩)) ρ ρ'
  | noElse {r : Range} {c : Expr} {b : Stmt} {ρ : Env} : Stmt.Runs σ (.ifElse r c b [] none) ρ ρ
  | case {r : Range} {e : Expr} {cs : List Case} {c : Case} {ρ ρ' : Env} (hc : c ∈ cs)
      (hss : BlockRuns σ c.statements ρ ρ') : Stmt.Runs σ (.switch r e cs) ρ ρ'
  | noCase {r : Range} {e : Expr} {cs : List Case} {ρ : Env} (hcs : ∀ c ∈ cs, c.value.isSome) :
      Stmt.Runs σ (.switch r e cs) ρ ρ

inductive BlockRuns (σ : State) : List Stmt → Env → Env → Prop
  | nil {ρ : Env} : BlockRuns σ [] ρ ρ
  | cons {s : Stmt} {ss : List Stmt} {ρ ρ₁ ρ' : Env} (hs : Stmt.Runs σ s ρ ρ₁)
      (hss : BlockRuns σ ss ρ₁ ρ') : BlockRuns σ (s :: ss) ρ ρ'

end

/-- An assignment by value of an expression that assigns nothing and asks for no type. -/
def Expr.isPlainAssignment : Expr → Bool
  | .assign _ (.var _ _) e false => e.isTest && e.isTypeFree
  | _ => false

mutual

/-- The statement is built from assignments, output, blocks and choices alone. -/
def Stmt.isLoopFree : Stmt → Bool
  | .comment _ _ | .empty _ => true
  | .expression _ e => e.isTest || e.isPlainAssignment
  | .echo _ es => es.all Expr.isTest
  | .block _ ss => blockIsLoopFree ss
  | .ifElse _ c b eis e => c.isTest && b.isLoopFree && elseIfsAreLoopFree eis && elseIsLoopFree e
  | .switch _ e cs => e.isTest && casesAreLoopFree cs
  | _ => false

def blockIsLoopFree : List Stmt → Bool
  | [] => true
  | s :: ss => s.isLoopFree && blockIsLoopFree ss

def elseIfsAreLoopFree : List ElseIf → Bool
  | [] => true
  | ⟨_, c, b⟩ :: cs => c.isTest && b.isLoopFree && elseIfsAreLoopFree cs

def elseIsLoopFree : Option Else → Bool
  | none => true
  | some ⟨_, b⟩ => b.isLoopFree

def casesAreLoopFree : List Case → Bool
  | [] => true
  | ⟨_, v, ss⟩ :: cs => v.all Expr.isTest && blockIsLoopFree ss && casesAreLoopFree cs

end

mutual

def Value.isFloatFree : Value → Bool
  | .float _ => false
  | .array es => entriesAreFloatFree es
  | _ => true

def entriesAreFloatFree : List (ArrayKey × Value) → Bool
  | [] => true
  | (_, v) :: es => v.isFloatFree && entriesAreFloatFree es

end

theorem both_eq_true {a b : Option Bool} (h : both a b = some true) : a = some true ∧ b = some true := by
  rcases a with _ | _ | _ <;> rcases b with _ | _ | _ <;> simp_all [both]

mutual

theorem Value.eq_of_identical {v w : Value} (hv : v.isFloatFree) (h : v.identical w = some true) :
    v = w := by
  cases v with
  | null | bool _ | int _ | string _ => cases w <;> simp_all [Value.identical]
  | float x => simp [Value.isFloatFree] at hv
  | object c => cases w <;> simp [Value.identical] at h
  | array as =>
    cases w with
    | array bs =>
      rw [eq_of_identicalEntries hv h]
    | _ => simp [Value.identical] at h

theorem eq_of_identicalEntries {as bs : List (ArrayKey × Value)} (has : entriesAreFloatFree as)
    (h : Value.identicalEntries as bs = some true) : as = bs := by
  match as, bs with
  | [], [] => rfl
  | [], _ :: _ => simp [Value.identicalEntries] at h
  | (_, _) :: _, [] => simp [Value.identicalEntries] at h
  | (k, a) :: as, (l, b) :: bs =>
    simp only [entriesAreFloatFree, Bool.and_eq_true] at has
    rw [Value.identicalEntries] at h
    split at h
    · next hk =>
      subst hk
      obtain ⟨ha, has'⟩ := both_eq_true h
      rw [Value.eq_of_identical has.1 ha, eq_of_identicalEntries has.2 has']
    · cases h

end

/-- Without floats all of the values are the common one. -/
theorem Value.eq_of_common? {vs : List (Option Value)} {u : Value} (h : common? vs = some u)
    (hfloat : ∀ o ∈ vs, o.all isFloatFree) : vs ≠ [] ∧ ∀ o ∈ vs, o = some u := by
  match vs with
  | [] | none :: _ => cases h
  | some v :: rest =>
    rw [common?] at h
    split at h
    · next hall =>
      cases h
      refine ⟨by simp, fun o ho => ?_⟩
      rcases mem_cons.mp ho with rfl | ho
      · rfl
      · have hu : u.isFloatFree := hfloat _ mem_cons_self
        have hsame := all_eq_true.mp hall o ho
        cases o with
        | none => cases hsame
        | some w => rw [eq_of_identical hu (by simpa using hsame)]
    · cases h

def Scope.FloatFree (sc : Scope) : Prop :=
  ∀ x, ∀ w ∈ (sc.trail x).history, w.value.all Value.isFloatFree

/-- Each variable that is written on every path has a live write that agrees with its value. -/
def Scope.Describes (sc : Scope) (ρ : Env) : Prop :=
  ∀ x, (sc.trail x).unwritten = false → x ≠ "this" ∧
    ∃ w ∈ (sc.trail x).live, ∃ v, ρ.lookup x = some v ∧ ∀ u, w.value = some u → u = v

namespace Scope

variable {sc sc' : Scope} {ρ : Env}

theorem FloatFree.of_growsTo {n : Nat} (h : sc'.FloatFree) (hg : sc.GrowsTo n sc') : sc.FloatFree :=
  fun x w hw => h x w ((hg.kept x).subset hw)

/-- If all live writes have the same value then the variable has it. -/
theorem lookup_of_flowValue {n : Nat} (hnum : sc.Numbered n) (hfloat : sc.FloatFree)
    (hd : sc.Describes ρ) {x : String} {u : Value}
    (h : (sc.var? x).bind (·.flowValue) = some u) : ρ.lookup x = some u := by
  obtain ⟨v, hv, hu⟩ := Option.bind_eq_some_iff.mp h
  have htrail : sc.trail x = v.trail := by simp [trail, hv]
  rw [Variable.flowValue] at hu
  split at hu
  · cases hu
  · next hknown =>
    simp only [Bool.or_eq_true, not_or, Bool.not_eq_true] at hknown
    have hfree : ∀ o ∈ v.live.map (·.value), o.all Value.isFloatFree := by
      intro o ho
      obtain ⟨w, hw, rfl⟩ := mem_map.mp ho
      have hw' : w ∈ (sc.trail x).live := htrail ▸ hw
      exact hfloat x w (hnum.live x w hw')
    obtain ⟨hne, hsame⟩ := Value.eq_of_common? hu hfree
    have hlive : v.live.isEmpty = false := by simpa using hne
    obtain ⟨-, w, hw, value, hlookup, hvalue⟩ := hd x (by simp [htrail, Variable.trail, hknown.1, hlive])
    have hw' : w.value = some u := by
      rw [htrail] at hw
      exact hsame _ (mem_map_of_mem hw)
    rw [hlookup, hvalue u hw']

end Scope

theorem Env.flowValue_scope (ρ : Env) (x : String) :
    (ρ.scope.var? x).bind (·.flowValue) = ρ.lookup x := by
  induction ρ with
  | nil => rfl
  | cons b ρ ih =>
    obtain ⟨y, v⟩ := b
    by_cases hy : y = x
    · subst hy
      rw [lookup_cons_self]
      simp [Env.scope, Scope.var?, Variable.write, Variable.flowValue, Value.common?]
    · have hy' : (x == y) = false := by simpa using fun h => hy h.symm
      rw [lookup_cons, hy', ← ih]
      simp [Env.scope, Scope.var?, Variable.write, hy]

/-- What the analysis knows is known to an execution that it describes. -/
theorem State.knownIn_inEnv {s : State} {h : Handle} {sc : Scope} {n : Nat} (w : s.Working h sc)
    (hnames : s.names = σ.names) (hnum : sc.Numbered n) (hfloat : sc.FloatFree) (hd : sc.Describes ρ) :
    s.KnownIn (σ.inEnv ρ) := by
  have hscope : s.currentScope = .ok sc := by
    rw [State.currentScope, w.handle]
    exact Arena.get_of_scope? w.scope
  refine ⟨hnames.symm, sc, ρ.scope, hscope, rfl, fun x u hu => ?_⟩
  rw [Env.flowValue_scope]
  exact Scope.lookup_of_flowValue hnum hfloat hd hu

namespace Scope.Describes

variable {sc sc' : Scope} {ρ : Env} {x : String} {v : Value}

theorem congr (h : sc.Describes ρ) (htrail : ∀ x, sc'.trail x = sc.trail x) : sc'.Describes ρ := by
  intro x hx
  rw [htrail x] at hx ⊢
  exact h x hx

theorem lookup_cons_of_ne {y : String} (hy : y ≠ x) : ((x, v) :: ρ : Env).lookup y = ρ.lookup y := by
  rw [lookup_cons, beq_false_of_ne hy]

/-- Nothing is ever said about `$this`. -/
theorem this (h : sc.Describes ρ) : sc.Describes (("this", v) :: ρ) := by
  intro y hy
  obtain ⟨hthis, hw⟩ := h y hy
  rw [lookup_cons_of_ne hthis]
  exact ⟨hthis, hw⟩

theorem write (h : sc.Describes ρ) (hx : x ≠ "this") {w : Write} (hw : ∀ u, w.value = some u → u = v) :
    (sc.updateVar x (·.write w)).Describes ((x, v) :: ρ) := by
  intro y hy
  have htrail := trail_updateVar_write sc x w y
  rw [htrail] at hy ⊢
  by_cases hyx : y = x
  · subst hyx
    rw [if_pos rfl]
    exact ⟨hx, w, mem_singleton_self w, v, lookup_cons_self, hw⟩
  · rw [if_neg hyx] at hy ⊢
    rw [lookup_cons_of_ne hyx]
    exact h y hy

end Scope.Describes

/-- Where the execution does `T` to the values of the variables, it is described before and after. -/
def Simulates (σ : State) (T : Env → Env → Prop) : Effect := fun l l' =>
  l.rest.names = σ.names → l'.scope.FloatFree →
    ∀ ρ ρ', T ρ ρ' → l.scope.Describes ρ → l'.scope.Describes ρ'

namespace Simulates

variable {σ : State} {T U : Env → Env → Prop} {l l' : Local}

theorem mono (h : Simulates σ T l l') (hU : ∀ ρ ρ', U ρ ρ' → T ρ ρ') : Simulates σ U l l' :=
  fun hnames hfloat ρ ρ' hrun => h hnames hfloat ρ ρ' (hU ρ ρ' hrun)

theorem of_quiet (h : l.Quiet l') : Simulates σ Eq l l' := by
  rintro - - ρ _ rfl hd
  exact hd.congr h.trail

theorem comp (h : Effect.andThen (Simulates σ T) (Simulates σ U) l l') :
    Simulates σ (Comp T U) l l' := by
  rintro hnames hfloat ρ ρ' ⟨ρ₁, hT, hU⟩ hd
  obtain ⟨m, hc, hc', h, h'⟩ := h
  exact h' (hc.names.trans hnames) hfloat ρ₁ ρ' hU (h hnames (hfloat.of_growsTo hc'.grows) ρ ρ₁ hT hd)

theorem of_leads {R : Route} (hR : R.sites = 0) (hnum : l.scope.Numbered l.next) (hc : l.Continues l')
    (h : R.Leads l l') : Simulates σ Eq l l' := by
  rintro - - ρ _ rfl hd x hx
  have hreach : l'.scope.reaching x = l.scope.reaching x := by
    rw [h.2, Route.paths_eq_one hR, reachThrough_one]
  have hun : (l.scope.trail x).unwritten = false := by
    rw [← Bool.not_eq_true, ← Scope.none_mem_reaching] at hx ⊢
    rwa [← hreach]
  obtain ⟨hx', w, hw, hv⟩ := hd x hun
  exact ⟨hx', w, Scope.mem_live_of_reaching_eq hnum hc.numbered hc.grows hreach hw, hv⟩

/-- The arm that is executed is described at its end. -/
theorem of_armsMove {sc : Scope} {Ts : List (Env → Env → Prop)} {n n' : Nat} {ρ ρ' : State}
    {arms : List Scope} (h : ArmsMove sc (Ts.map (Simulates σ)) n ρ arms n' ρ') (hnames : ρ.names = σ.names)
    (hfloat : ∀ arm ∈ arms, arm.FloatFree) (hT : T ∈ Ts) {η η' : Env} (hrun : T η η') (hd : sc.Describes η) :
    ∃ arm ∈ arms, arm.Describes η' := by
  induction Ts generalizing n ρ arms with
  | nil => cases hT
  | cons U Ts ih =>
    cases h with
    | @cons _ _ _ _ _ _ arm m arms htrail hc hE hrest =>
      rcases mem_cons.mp hT with rfl | hT
      · exact ⟨m.scope, mem_cons_self,
          hE hnames (hfloat _ mem_cons_self) η η' hrun (hd.congr htrail)⟩
      · obtain ⟨arm, harm, hd'⟩ := ih hrest (hc.names.trans hnames)
          (fun a ha => hfloat a (mem_cons_of_mem _ ha)) hT
        exact ⟨arm, mem_cons_of_mem _ harm, hd'⟩

theorem of_merges (Ts : List (Env → Env → Prop)) (hnum : l.scope.Numbered l.next)
    (h : Merges (Ts.map (Simulates σ)) l l') :
    Simulates σ (fun ρ ρ' => ∃ T ∈ Ts, T ρ ρ') l l' := by
  rintro hnames hfloat η η' ⟨T, hT, hrun⟩ hd
  obtain ⟨ρ, arms, hnames', hne, harms, hscope⟩ := h
  rw [hscope] at hfloat ⊢
  have hfree : ∀ arm ∈ arms, arm.FloatFree := fun arm harm x w hw =>
    hfloat x w ((harms.toArms.mem_history_merge hne hnum).mpr (.inr ⟨arm, harm, hw⟩))
  obtain ⟨arm, harm, hd'⟩ := of_armsMove harms (hnames'.trans hnames) hfree hT hrun hd
  intro x hx
  have hun : (arm.trail x).unwritten = false := by
    rw [Scope.trail_merge _ hne, Trail.merge] at hx
    simp only [any_eq_false, mem_map] at hx
    simpa using hx _ ⟨arm, harm, rfl⟩
  obtain ⟨hx', w, hw, hv⟩ := hd' x hun
  exact ⟨hx', w, (harms.toArms.mem_live_merge hne hnum).mpr ⟨arm, harm, hw⟩, hv⟩

end Simulates

namespace Step

def Tracks (m : Step Bool) (σ : State) (T : Env → Env → Prop) : Prop := m.Moves (Simulates σ T)

namespace Tracks

variable {σ : State} {a b : Step Bool} {T U : Env → Env → Prop} {α : Type}

theorem mono (h : a.Tracks σ T) (hU : ∀ ρ ρ', U ρ ρ' → T ρ ρ') : a.Tracks σ U :=
  Moves.mono h fun _ _ _ _ hs => hs.mono hU

theorem continue_ : (Pure.pure true : Step Bool).Tracks σ Eq :=
  Moves.continue_.mono fun _ _ _ _ h => .of_quiet h

theorem ofFollows {R : Route} (h : a.Follows R) (hR : R.sites = 0) : a.Tracks σ Eq :=
  Moves.mono h fun _ _ hnum hc hl => .of_leads hR hnum hc hl

theorem andThen (ha : a.Tracks σ T) (hb : b.Tracks σ U) : (Step.andThen a b).Tracks σ (Comp T U) :=
  (Moves.andThen ha hb).mono fun _ _ _ _ h => .comp h

theorem afterTest (ha : a.Tracks σ Eq) (hb : b.Tracks σ T) : (Step.andThen a b).Tracks σ T :=
  (ha.andThen hb).mono fun ρ _ h => ⟨ρ, rfl, h⟩

theorem guarded {r : Range} {fallback : Bool} (ha : a.Tracks σ T) :
    (Step.guarded r fallback a).Tracks σ T :=
  Acts.guarded ha

theorem thenContinue {m : Step Unit} (hm : m.Does (Simulates σ T)) :
    (Step.thenContinue m).Tracks σ T :=
  Moves.thenContinue hm

theorem after {m : Step α} {f : α → Step Bool} (hm : m.Quiet) (hf : ∀ x, (f x).Tracks σ T) :
    (m >>= f).Tracks σ T :=
  (Moves.after hm.does hf).mono fun _ _ _ _ ⟨m, hc, hc', h, h'⟩ =>
    (Simulates.comp ⟨m, hc, hc', .of_quiet h, h'⟩).mono fun ρ _ h => ⟨ρ, rfl, h⟩

theorem choice (c : Expr) (ha : a.Tracks σ T) (hb : b.Tracks σ U) :
    (Step.choice c a b).Tracks σ fun ρ ρ' => T ρ ρ' ∨ U ρ ρ' :=
  (Moves.choice c ha hb).mono fun _ _ hnum _ h =>
    (Simulates.of_merges [T, U] hnum h).mono fun _ _ h => by simpa using h

/-- Of the arms of a switch one is executed, or none if there is no default. -/
theorem switchArms {ms : List (Step Bool)} {Ts : List (Env → Env → Prop)}
    (hms : List.Forall₂ (fun m T => m.Tracks σ T) ms Ts) {hasDefault : Bool}
    (hsome : hasDefault → Ts ≠ []) :
    (PhpFlow.switchArms hasDefault ms).Tracks σ fun ρ ρ' =>
      (∃ T ∈ Ts, T ρ ρ') ∨ (hasDefault = false ∧ ρ = ρ') := by
  have hmoves : List.Forall₂ Moves ms (Ts.map (Simulates σ)) := List.forall₂_map_right_iff.mpr hms
  refine (Moves.switchArms hmoves fun hd hnil => hsome hd (map_eq_nil_iff.mp hnil)).mono ?_
  intro l l' hnum _ h
  cases hasDefault with
  | true =>
    rw [if_pos rfl, append_nil] at h
    exact (Simulates.of_merges Ts hnum h).mono fun _ _ h => by simpa using h
  | false =>
    have hmerge : Merges ((Ts ++ [Eq]).map (Simulates σ)) l l' := by
      rw [map_append]
      exact h.mono (rel_append (List.forall₂_same.mpr fun _ _ _ _ hE => hE)
        (.cons (fun _ _ hq => .of_quiet hq) .nil))
    refine (Simulates.of_merges _ hnum hmerge).mono fun ρ ρ' h => ?_
    rcases h with ⟨T, hT, hrun⟩ | ⟨-, heq⟩
    · exact ⟨T, mem_append_left _ hT, hrun⟩
    · exact ⟨Eq, mem_append_right _ (mem_singleton_self _), heq⟩

end Tracks

end Step

/-- A variable was given a value, unless it is `$this` or the value was not kept. -/
def Stores (x : String) (v : Option Value) : Effect := fun l l' =>
  (x = "this" ∧ l.Quiet l') ∨
    (x ≠ "this" ∧ ∃ type w range, KnownAlso w v ∧ Writes x type w range l l')

theorem stores_store (r : Range) (x : String) (u : Option TypeUnion) (v : Option Value) :
    ((Expr.var r x).store u v).Does (Stores x v) := by
  rw [Expr.store, Expr.write]
  by_cases hx : x = "this"
  · rw [if_pos hx]
    exact (Step.Quiet.does (.pure ())).mono fun _ _ _ _ h => .inl ⟨hx, h⟩
  · rw [if_neg hx]
    have hkeep : (keepValue v).Acts fun l w l' => KnownAlso w v ∧ l' = l := by
      refine (Step.Acts.get fun _ => rfl).mono ?_
      rintro l w l' ⟨rfl, hl⟩
      refine ⟨?_, hl⟩
      split
      · intro _ h
        cases h
      · exact fun _ h => h
    refine (Step.Acts.bind hkeep fun w => Step.Acts.write x _ w (some r)).mono ?_
    rintro l _ l' ⟨w, l₁, ⟨hw, rfl⟩, hwrite⟩
    exact (Writes.moves hwrite).mono fun _ _ h => .inr ⟨hx, _, w, _, hw, h⟩

/-- What the analysis knows of a value is what an execution that it describes evaluates to. -/
theorem Evaluates.eq_of_answers {l : Local} {u v : Value} (he : e.isTypeFree)
    (hans : e.value.Answers l (some u)) (hnames : l.rest.names = σ.names) (hnum : l.scope.Numbered l.next)
    (hfloat : l.scope.FloatFree) (hd : l.scope.Describes ρ) (hv : Evaluates σ ρ e v) : u = v := by
  obtain ⟨s, h, w, hview, hu⟩ := hans
  have hs : s.names = σ.names := by
    rw [← hnames, ← hview]
    rfl
  have hknown := State.knownIn_inEnv w hs hnum hfloat hd
  rcases hv with hv | hv
  · cases Expr.value_stays he hknown hu hv
    rfl
  · cases Expr.value_stays he hknown hu hv

/-- What is stored is what the expression evaluates to. -/
theorem simulates_storeFrom (r : Range) (x : String) (he : e.isTypeFree) :
    ((Expr.var r x).storeFrom e true).Does
      (Simulates σ fun ρ ρ' => ∃ v, Evaluates σ ρ e v ∧ ρ' = (x, v) :: ρ) := by
  have hstore (u : Option TypeUnion) :
      (Step.query e.value >>= fun v => (Expr.var r x).store u v).Does
        (Simulates σ fun ρ ρ' => ∃ v, Evaluates σ ρ e v ∧ ρ' = (x, v) :: ρ) := by
    refine (Step.Acts.bind (Step.Acts.query e.numericFaults_value) fun v =>
      stores_store r x u v).mono ?_
    rintro l _ l' ⟨value, l₁, ⟨hans, hsame⟩, hst⟩
    refine ((Local.Moves.of_quiet (Passage.sink hsame)).comp hst).mono ?_
    rintro hnum hc ⟨m, -, -, hq, hst⟩ hnames hfloat ρ _ ⟨v, hv, rfl⟩ hd
    rcases hst with ⟨rfl, hq'⟩ | ⟨hx, type, w, range, hw, hwrite⟩
    · exact hd.this.congr (Passage.trans hq hq').trail
    · rw [hwrite]
      refine (hd.congr hq.trail).write hx fun u hu => ?_
      exact Evaluates.eq_of_answers he (hw u hu ▸ hans) hnames hnum (hfloat.of_growsTo hc.grows) hd hv
  exact ((Step.Quiet.does (.query e.numericFaults_type)).bind hstore).mono fun _ _ _ _ ⟨m, hc, hc', h, h'⟩ =>
    (Simulates.comp ⟨m, hc, hc', .of_quiet h, h'⟩).mono fun ρ _ hrun => ⟨ρ, rfl, hrun⟩

/-- Reading an expression that assigns nothing leaves the variables. -/
theorem Expr.tracks_test (e : Expr) (he : e.isTest) (k : NodeKind) : (e.evaluate k).Tracks σ Eq := by
  simp only [Expr.isTest, Bool.and_eq_true, beq_iff_eq] at he
  exact .ofFollows (e.follows_evaluate he.1 k) he.2

theorem tracks_tests (es : List Expr) (hes : es.all Expr.isTest) (k : NodeKind) :
    (evaluateAll es k).Tracks σ Eq := by
  obtain ⟨hstruct, hsites⟩ := allAreStructured_of_tests hes
  exact .ofFollows (follows_evaluateAll es hstruct k) hsites

theorem tracks_assignment (r r' : Range) (x : String) (he : e.isTest) (hfree : e.isTypeFree) (k : NodeKind) :
    ((Expr.assign r (.var r' x) e false).evaluate k).Tracks σ
      fun ρ ρ' => ∃ v, Evaluates σ ρ e v ∧ ρ' = (x, v) :: ρ := by
  simp only [Expr.isTest, Bool.and_eq_true, beq_iff_eq] at he
  refine .after (Expr.quiet_read _ .value) fun _ => ?_
  exact .guarded (.afterTest (.ofFollows (e.follows he.1 _) he.2)
    (.afterTest .continue_ (.thenContinue (simulates_storeFrom r' x hfree))))

/-- What is executed of a choice if its first body is not. -/
def Otherwise (σ : State) : List ElseIf → Option Else → Env → Env → Prop
  | [], none => Eq
  | [], some e => e.body.Runs σ
  | c :: cs, e => Stmt.Runs σ (.ifElse c.range c.condition c.body cs e)

namespace Stmt.Runs

variable {σ : State} {ρ ρ' : Env} {r : Range}

theorem of_isIdle {s : Stmt} (h : s.Runs σ ρ ρ') (hs : s.isIdle) : ρ = ρ' := by
  cases h with
  | idle => rfl
  | assign => simp [isIdle, Expr.isTest, Expr.route, Expr.targetRoute, Route.seq, Route.write] at hs
  | _ => cases hs

theorem expression_assign {r' r'' : Range} {x : String} {e : Expr}
    (h : Stmt.Runs σ (.expression r (.assign r' (.var r'' x) e false)) ρ ρ') :
    ∃ v, Evaluates σ ρ e v ∧ ρ' = (x, v) :: ρ := by
  cases h with
  | idle hs => simp [isIdle, Expr.isTest, Expr.route, Expr.targetRoute, Route.seq, Route.write] at hs
  | assign he => exact ⟨_, he, rfl⟩

theorem of_block {ss : List Stmt} (h : Stmt.Runs σ (.block r ss) ρ ρ') : BlockRuns σ ss ρ ρ' := by
  cases h with
  | idle hs => cases hs
  | block h => exact h

theorem of_ifElse {c : Expr} {b : Stmt} {cs : List ElseIf} {e : Option Else}
    (h : Stmt.Runs σ (.ifElse r c b cs e) ρ ρ') : b.Runs σ ρ ρ' ∨ Otherwise σ cs e ρ ρ' := by
  cases h with
  | idle hs => cases hs
  | body hb => exact .inl hb
  | elseIf h | else_ h => exact .inr h
  | noElse => exact .inr rfl

theorem of_switch {e : Expr} {cs : List Case} (h : Stmt.Runs σ (.switch r e cs) ρ ρ') :
    (∃ T ∈ cs.map fun c => BlockRuns σ c.statements, T ρ ρ') ∨
      ((cs.any fun c => c.value.isNone) = false ∧ ρ = ρ') := by
  cases h with
  | idle hs => cases hs
  | case hc h => exact .inl ⟨_, mem_map_of_mem hc, h⟩
  | noCase hcs =>
    refine .inr ⟨?_, rfl⟩
    simpa [Option.isSome_iff_ne_none] using hcs

end Stmt.Runs

theorem BlockRuns.of_cons {s : Stmt} {ss : List Stmt} {ρ' : Env} (h : BlockRuns σ (s :: ss) ρ ρ') :
    Comp (s.Runs σ) (BlockRuns σ ss) ρ ρ' := by
  cases h with
  | cons hs hss => exact ⟨_, hs, hss⟩

theorem BlockRuns.of_nil {ρ' : Env} (h : BlockRuns σ [] ρ ρ') : ρ = ρ' := by
  cases h
  rfl

mutual

/-- The analysis of loop-free code describes every execution of it. -/
theorem Stmt.tracks {σ : State} (s : Stmt) (hs : s.isLoopFree) (k : NodeKind) :
    (s.analyze k).Tracks σ (s.Runs σ) := by
  cases s with
  | comment r t =>
    rw [Stmt.analyze]
    exact (Step.Tracks.ofFollows (.ofQuiet (quiet_keepDoc t r)) rfl).mono fun _ _ h => h.of_isIdle rfl
  | empty r =>
    rw [Stmt.analyze]
    exact Step.Tracks.continue_.mono fun _ _ h => h.of_isIdle rfl
  | expression r e =>
    simp only [Stmt.isLoopFree, Bool.or_eq_true] at hs
    rcases hs with hs | hs
    · exact (e.tracks_test hs _).mono fun _ _ h => h.of_isIdle hs
    · unfold Expr.isPlainAssignment at hs
      split at hs
      · rw [Bool.and_eq_true] at hs
        exact (tracks_assignment _ _ _ hs.1 hs.2 _).mono fun _ _ h => h.expression_assign
      · cases hs
  | echo r es =>
    exact (tracks_tests es hs _).mono fun _ _ h => h.of_isIdle hs
  | block r ss =>
    exact .guarded ((tracks_statements ss hs _).mono fun _ _ h => h.of_block)
  | ifElse r c b eis e =>
    simp only [Stmt.isLoopFree, Bool.and_eq_true] at hs
    refine .guarded (.afterTest (c.tracks_test hs.1.1.1 _) ?_)
    exact (Step.Tracks.choice c (b.tracks hs.1.1.2 _)
      (tracks_elseIfs eis hs.1.2 (tracks_else e hs.2))).mono fun _ _ h => h.of_ifElse
  | switch r e cs =>
    simp only [Stmt.isLoopFree, Bool.and_eq_true] at hs
    refine .guarded (.afterTest (e.tracks_test hs.1 _) ?_)
    refine (Step.Tracks.switchArms (tracks_cases cs hs.2) fun hdefault hnil => ?_).mono
      fun _ _ h => h.of_switch
    rw [map_eq_nil_iff.mp hnil] at hdefault
    cases hdefault
  | _ => simp [Stmt.isLoopFree] at hs

theorem tracks_statements {σ : State} (ss : List Stmt) (hss : blockIsLoopFree ss) (k : NodeKind) :
    (analyzeStatements ss k).Tracks σ (BlockRuns σ ss) := by
  cases ss with
  | nil =>
    rw [analyzeStatements]
    exact Step.Tracks.continue_.mono fun _ _ h => h.of_nil
  | cons s ss =>
    simp only [blockIsLoopFree, Bool.and_eq_true] at hss
    by_cases hcomment : ∃ r t, s = .comment r t
    · obtain ⟨r, t, rfl⟩ := hcomment
      refine .after (quiet_keepDoc t r) fun _ => (tracks_statements ss hss.2 k).mono fun ρ ρ' h => ?_
      obtain ⟨ρ₁, hs, hss⟩ := h.of_cons
      rwa [hs.of_isIdle rfl]
    · rw [analyzeStatements]
      · exact .after (noteClosed_quiet.applyDoc _) fun _ =>
          ((s.tracks hss.1 k).andThen (tracks_statements ss hss.2 k)).mono fun _ _ h => h.of_cons
      · exact fun r t he => hcomment ⟨r, t, he⟩

theorem tracks_elseIfs {σ : State} (cs : List ElseIf) (hcs : elseIfsAreLoopFree cs) {last : Step Bool}
    {e : Option Else} (hlast : last.Tracks σ (Otherwise σ [] e)) :
    (analyzeElseIfs cs last).Tracks σ (Otherwise σ cs e) := by
  cases cs with
  | nil =>
    rw [analyzeElseIfs]
    exact hlast
  | cons c cs =>
    obtain ⟨_, c, b⟩ := c
    simp only [elseIfsAreLoopFree, Bool.and_eq_true] at hcs
    rw [analyzeElseIfs]
    refine .afterTest (c.tracks_test hcs.1.1 _) ?_
    exact (Step.Tracks.choice c (b.tracks hcs.1.2 _) (tracks_elseIfs cs hcs.2 hlast)).mono
      fun _ _ h => h.of_ifElse

theorem tracks_else {σ : State} (e : Option Else) (he : elseIsLoopFree e) :
    (analyzeElse e).Tracks σ (Otherwise σ [] e) := by
  cases e with
  | none =>
    rw [analyzeElse]
    exact .continue_
  | some e =>
    obtain ⟨_, b⟩ := e
    rw [analyzeElse]
    exact b.tracks he _

theorem tracks_cases {σ : State} (cs : List Case) (hcs : casesAreLoopFree cs) :
    List.Forall₂ (fun m T => m.Tracks σ T) (caseArms cs) (cs.map fun c => BlockRuns σ c.statements) := by
  cases cs with
  | nil =>
    rw [caseArms]
    exact .nil
  | cons c cs =>
    obtain ⟨_, v, ss⟩ := c
    simp only [casesAreLoopFree, Bool.and_eq_true] at hcs
    rw [caseArms]
    refine .cons (.afterTest (tracks_tests _ ?_ _) (tracks_statements ss hcs.1.2 _))
      (tracks_cases cs hcs.2)
    cases v with
    | none => rfl
    | some e => simpa using hcs.1.1

end

/-- Constant propagation is sound on loop-free code. Unless a number is too large, the analysis completes;
and if no float was written, a variable whose value is known at the end has it after every execution. -/
theorem flow_value_holds_on_runs (r : Range) (ss : List Stmt) (symbols : SymbolTable) (config : Config)
    (sink : Sink) (file : Option String) (hss : blockIsLoopFree ss) :
    (∃ a root, analyzeFile (.program r ss) symbols config sink file false = .ok a ∧
      a.completed = true ∧ a.fileScope? = some root ∧
      (root.FloatFree → ∀ x v, (root.var? x).bind (·.flowValue) = some v →
        ∀ ρ, BlockRuns (State.new symbols config file sink) ss [] ρ → ρ.lookup x = some v)) ∨
    ∃ e, analyzeFile (.program r ss) symbols config sink file false = .error e ∧ e.isNumeric := by
  have hprogram : ((Stmt.program r ss).analyze .program).Tracks (State.new symbols config file sink)
      (BlockRuns (State.new symbols config file sink) ss) := by
    rw [Stmt.analyze]
    exact .guarded (tracks_statements ss hss _)
  refine (analyzeFile_moves hprogram symbols config sink file).imp_left ?_
  rintro ⟨a, root, ha, hok, hroot, hc, hsim⟩
  refine ⟨a, root, ha, hok, hroot, fun hfloat x v hv ρ hrun => ?_⟩
  have hstart : Scope.fresh.Describes [] := fun x hx => by
    cases hx
  exact Scope.lookup_of_flowValue hc.numbered hfloat (hsim rfl hfloat [] ρ hrun hstart) hv

/-- The code `if ($c) { $x = 1; } else { $x = 2 - 1; } $y = $x + 1;`. -/
def agreeingBranches : List Stmt :=
  let set (x : String) (e : Expr) : Stmt := .expression .zero (.assign .zero (.var .zero x) e false)
  [.ifElse .zero (.var .zero "c") (.block .zero [set "x" (.integer .zero 1)]) []
    (some ⟨.zero, .block .zero [set "x" (.binary .zero (.integer .zero 2) "-" (.integer .zero 1))]⟩),
   set "y" (.binary .zero (.var .zero "x") "+" (.integer .zero 1))]

def Scope.isFloatFree (sc : Scope) : Bool :=
  sc.vars.all fun v => v.history.all fun w => w.value.all Value.isFloatFree

theorem Scope.floatFree_of_isFloatFree {sc : Scope} (h : sc.isFloatFree) : sc.FloatFree := by
  intro x w hw
  cases hv : sc.var? x with
  | none =>
    simp [trail, hv, Trail.empty] at hw
  | some v =>
    have hmem : v ∈ sc.vars := mem_of_find?_eq_some hv
    have hw' : w ∈ v.history := by simpa [trail, hv, Variable.trail] using hw
    exact all_eq_true.mp (all_eq_true.mp h v hmem) w hw'

def Value.isInt (n : Int) : Value → Bool
  | .int m => m = n
  | _ => false

theorem Value.eq_of_isInt {v : Value} {n : Int} (h : v.isInt n = true) : v = .int n := by
  cases v with
  | int m => rw [of_decide_eq_true h]
  | _ => cases h

/-- Both branches give the same value, so there is a sum after them, and every execution computes it. -/
theorem agreeingBranches_sum_holds : blockIsLoopFree agreeingBranches ∧
    ∃ a root, analyzeFile (.program .zero agreeingBranches) {} {} .discarding none false = .ok a ∧
      a.fileScope? = some root ∧ root.FloatFree ∧
      (root.var? "y").bind (·.flowValue) = some (.int 2) ∧
      BlockRuns (.new {} {} none .discarding) agreeingBranches [] [("y", .int 2), ("x", .int 1)] ∧
      ∀ ρ, BlockRuns (.new {} {} none .discarding) agreeingBranches [] ρ →
        ρ.lookup "y" = some (.int 2) := by
  have hloopFree : blockIsLoopFree agreeingBranches := by decide
  have hend : ((analyzeFile (.program .zero agreeingBranches) {} {} .discarding none false).toOption.bind
      (·.fileScope?)).any (fun root => root.isFloatFree &&
        ((root.var? "y").bind (·.flowValue)).any (·.isInt 2)) = true := by
    decide +kernel
  rcases flow_value_holds_on_runs .zero agreeingBranches {} {} .discarding none hloopFree with
    ⟨a, root, ha, -, hroot, h⟩ | ⟨e, he, -⟩
  · rw [ha, Except.toOption, Option.bind_some, hroot, Option.any_some, Bool.and_eq_true,
      Option.any_eq_true] at hend
    obtain ⟨hfloat, v, hv, htwo⟩ := hend
    obtain rfl := Value.eq_of_isInt htwo
    have hfree := Scope.floatFree_of_isFloatFree hfloat
    refine ⟨hloopFree, a, root, ha, hroot, hfree, hv, ?_, h hfree "y" (.int 2) hv⟩
    exact .cons (.body (.block (.cons (.assign (.inl rfl)) .nil))) (.cons (.assign (.inl rfl)) .nil)
  · rw [he] at hend
    cases hend

end PhpFlow
