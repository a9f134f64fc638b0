import PhpFlow.Proofs.Balance
import PhpFlow.Proofs.Consulting
import PhpFlow.Proofs.Renumbering

/-!
# Two analyses side by side

The same code is analysed twice, in states that differ in issues, in the numbers of writes, in handles and in
what is known about the bodies of functions. As long as names stand for the same in both and their scopes have
the same variables, both give the same answers, find the same issues and make the same changes, or both end in
a fault. Some scopes are held: no step discards them but the one that has made them.
-/
namespace PhpFlow

open List

variable {s t s₁ t₁ : State}

/-- What a step can see of a state besides scopes. The type that a function promises is known before its
body is analysed. -/
structure Outlook where
  file : Option String
  bearings : Bearings
  promised : QualifiedName → Option (Option TypeUnion)
  config : Config
  loopDepth : Nat
  pendingDoc : Option DocText
  templates : List String

def FunctionSymbol.promised (f : FunctionSymbol) : Option TypeUnion := f.declared <|> f.comment

def State.outlook (s : State) : Outlook where
  file := s.file
  bearings := s.bearings
  promised q := (s.symbols.function? q).map (·.promised)
  config := s.config
  loopDepth := s.loopDepth
  pendingDoc := s.pendingDoc
  templates := s.templates

theorem State.outlook_of_rest (h : t.rest = s.rest) : t.outlook = s.outlook := by
  change t.rest.outlook = s.rest.outlook
  rw [h]

theorem State.sink_of_rest (h : t.rest = s.rest) : t.sink = s.sink := by
  change t.rest.sink = s.rest.sink
  rw [h]

namespace Step

variable {α β γ δ : Type}
variable {R : α → State → β → State → Prop} {f : α → Step γ} {a : α}

/-- Run from `s` and `t`, both steps give answers and states as `R` says, or both end in faults about numbers
and leave states as `E` says. -/
inductive Twin (m : Step α) (n : Step β) (s t : State) (R : α → State → β → State → Prop)
    (E : State → State → Prop) : Prop
  | both {a : α} {s₁ : State} {b : β} {t₁ : State} (hm : m s = (.ok a, s₁)) (hn : n t = (.ok b, t₁))
      (h : R a s₁ b t₁) : Twin m n s t R E
  | neither {e e' : Fault} {s₁ t₁ : State} (hm : m s = (.error e, s₁)) (hn : n t = (.error e', t₁))
      (he : e.isNumeric) (he' : e'.isNumeric) (h : E s₁ t₁) : Twin m n s t R E

variable {m : Step α} {n : Step β} {s t : State} {E : State → State → Prop}

theorem Twin.mono {R' : α → State → β → State → Prop} {E' : State → State → Prop} (h : Twin m n s t R E)
    (hR : ∀ a s₁ b t₁, R a s₁ b t₁ → R' a s₁ b t₁) (hE : ∀ s₁ t₁, E s₁ t₁ → E' s₁ t₁) :
    Twin m n s t R' E' := by
  cases h with
  | both hm hn h => exact .both hm hn (hR _ _ _ _ h)
  | neither hm hn he he' h => exact .neither hm hn he he' (hE _ _ h)

theorem Twin.imp {R' : α → State → β → State → Prop} (h : Twin m n s t R E)
    (hR : ∀ a s₁ b t₁, R a s₁ b t₁ → R' a s₁ b t₁) : Twin m n s t R' E :=
  h.mono hR fun _ _ he => he

theorem Twin.bind {g : β → Step δ} {R : γ → State → δ → State → Prop}
    (h : Twin m n s t (fun a s₁ b t₁ => Twin (f a) (g b) s₁ t₁ R E) E) :
    Twin (m >>= f) (n >>= g) s t R E := by
  cases h with
  | both hm hn h =>
    cases h with
    | both hf hg h => exact .both ((bind_eq_of_ok hm).trans hf) ((bind_eq_of_ok hn).trans hg) h
    | neither hf hg he he' h =>
      exact .neither ((bind_eq_of_ok hm).trans hf) ((bind_eq_of_ok hn).trans hg) he he' h
  | neither hm hn he he' h => exact .neither (bind_eq_of_error hm) (bind_eq_of_error hn) he he' h

theorem Twin.chain {g : β → Step δ} {Q : α → State → β → State → Prop} {R : γ → State → δ → State → Prop}
    (h : Twin m n s t Q E) (hnext : ∀ a s₁ b t₁, Q a s₁ b t₁ → Twin (f a) (g b) s₁ t₁ R E) :
    Twin (m >>= f) (n >>= g) s t R E :=
  .bind (h.imp hnext)

theorem Twin.pure {b : β} (h : R a s b t) : Twin (Pure.pure a) (Pure.pure b) s t R E := .both rfl rfl h

theorem Twin.modify {f g : State → State} {R : Unit → State → Unit → State → Prop}
    (h : R () (f s) () (g t)) : Twin (Step.modify f) (Step.modify g) s t R E := .both rfl rfl h

theorem Twin.get {f : State → α} {g : State → β} (h : R (f s) s (g t) t) :
    Twin (Step.get f) (Step.get g) s t R E := .both rfl rfl h

theorem Twin.getFault {f : State → Except Fault α} {g : State → Except Fault β} {b : β} (hf : f s = .ok a)
    (hg : g t = .ok b) (h : R a s b t) : Twin (Step.getFault f) (Step.getFault g) s t R E :=
  .both (by rw [Step.getFault, hf]) (by rw [Step.getFault, hg]) h

theorem Twin.guarded (h : Twin m n s t R E) (r r' : Range) (a : α) (b : β) :
    Twin (Step.guarded r a m) (Step.guarded r' b n) s t R E := by
  cases h with
  | both hm hn h => exact .both (by rw [Step.guarded, hm]) (by rw [Step.guarded, hn]) h
  | neither hm hn he he' h =>
    refine .neither ?_ ?_ he he' h
    · simp [Step.guarded, hm, Fault.isInternal_of_isNumeric he]
    · simp [Step.guarded, hn, Fault.isInternal_of_isNumeric he']

/-- What is done last never fails. -/
theorem Twin.ensuring {last last' : Step Unit} (h : Twin m n s t
      (fun a s₁ b t₁ => Twin last last' s₁ t₁ (fun _ s₂ _ t₂ => R a s₂ b t₂) fun _ _ => False)
      fun s₁ t₁ => Twin last last' s₁ t₁ (fun _ s₂ _ t₂ => E s₂ t₂) fun _ _ => False) :
    Twin (Step.ensuring m last) (Step.ensuring n last') s t R E := by
  cases h with
  | both hm hn h =>
    cases h with
    | both hl hl' h => exact .both (by simp [Step.ensuring, hm, hl]) (by simp [Step.ensuring, hn, hl']) h
    | neither _ _ _ _ h => exact h.elim
  | neither hm hn he he' h =>
    cases h with
    | both hl hl' h => exact .neither (by simp [Step.ensuring, hm, hl]) (by simp [Step.ensuring, hn, hl']) he he' h
    | neither _ _ _ _ h => exact h.elim

/-- A query that has the same answer in both states. -/
theorem Twin.query {q : Query α} (hq : q.NumericFaults) (hsame : q t = q s)
    {R : α → State → α → State → Prop}
    (hR : ∀ a (found : List Issue), R a { s with sink := found.foldl Sink.emit s.sink } a
      { t with sink := found.foldl Sink.emit t.sink })
    (hE : ∀ found : List Issue, E { s with sink := found.foldl Sink.emit s.sink }
      { t with sink := found.foldl Sink.emit t.sink }) :
    Twin (Step.query q) (Step.query q) s t R E := by
  have hs := query_eq q s
  have ht := query_eq q t
  rw [hsame] at ht
  cases hr : (q s).1 with
  | ok a =>
    rw [hr] at hs ht
    exact .both hs ht (hR a (q s).2)
  | error e =>
    rw [hr] at hs ht
    exact .neither hs ht (hq s e hr) (hq s e hr) (hE (q s).2)

end Step

/-- The scopes entered around those of the current function; there are none around those of the file. -/
abbrev Context := Option (List (List Handle) × List Handle)

def Context.around : Context → List Handle → List (List Handle) × List Handle
  | none, st => ([], st)
  | some (fs, file), st => (st :: fs, file)

/-- How the scopes and the writes of one analysis correspond to those of another, and what the two started
with. The second one had some scopes that are not concerned. -/
structure Pairing where
  handle : Handle → Handle
  number : Nat → Nat
  number_injective : number.Injective
  leftSink : Sink
  rightSink : Sink
  leftOuter : Context
  rightOuter : Context
  base : Arena

variable {φ : Pairing} {held : List Handle}

/-- The scopes `held` are live in both arenas and have the same variables there. Scopes and writes that are
made from now on correspond to each other. -/
structure Pairing.Arenas (φ : Pairing) (held : List Handle) (a b : Arena) : Prop where
  nodup : (held.map φ.handle).Nodup
  scopes : ∀ h ∈ held, ∃ sc sc', a.scope? h = some sc ∧ b.scope? (φ.handle h) = some sc' ∧
    sc.Renumbered φ.number sc' ∧ sc.NumbersIn (· < a.nextWrite)
  placed : a.Placed ∧ b.Placed
  nextScope : ∀ k : Nat, φ.handle (a.scopes.size + k : Nat) = (b.scopes.size + k : Nat)
  nextWrite : ∀ k, φ.number (a.nextWrite + k) = b.nextWrite + k
  grown : φ.base.scopes.size ≤ b.scopes.size ∧ φ.base.nextWrite ≤ b.nextWrite
  apart : ∀ h ∈ held, (φ.base.scopes.size : Handle) ≤ φ.handle h
  foreign : ∀ j < (φ.base.scopes.size : Handle), b.scope? j = φ.base.scope? j

namespace Pairing.Arenas

variable {a b : Arena} {h k : Handle} {ks : List Handle}

theorem handle_ne (A : φ.Arenas (k :: held) a b) (hh : h ∈ held) : φ.handle h ≠ φ.handle k ∧ h ≠ k := by
  have hne : φ.handle h ≠ φ.handle k := fun he =>
    (nodup_cons.mp A.nodup).1 (he ▸ mem_map_of_mem hh)
  exact ⟨hne, fun he => hne (he ▸ rfl)⟩

theorem handle_inj (A : φ.Arenas held a b) (hh : h ∈ held) (hk : k ∈ held) : φ.handle h = φ.handle k ↔ h = k :=
  ⟨fun he => inj_on_of_nodup_map A.nodup hh hk he, congrArg φ.handle⟩

theorem perm (A : φ.Arenas held a b) {held' : List Handle} (hp : held'.Perm held) : φ.Arenas held' a b where
  nodup := (hp.map φ.handle).nodup_iff.mpr A.nodup
  scopes h hh := A.scopes h (hp.mem_iff.mp hh)
  placed := A.placed
  nextScope := A.nextScope
  nextWrite := A.nextWrite
  grown := A.grown
  apart h hh := A.apart h (hp.mem_iff.mp hh)
  foreign := A.foreign

theorem add (A : φ.Arenas held a b) {vars vars' : List Variable}
    (hvars : vars' = vars.map (Variable.renumber φ.number)) (hnum : ∀ v ∈ vars, v.NumbersIn (· < a.nextWrite))
    (p p' : Option Handle) (side : BranchSide) :
    φ.Arenas ((a.scopes.size : Nat) :: held) (a.add p side vars).2 (b.add p' side vars').2 := by
  have hnew : φ.handle (a.scopes.size : Nat) = (b.scopes.size : Nat) := A.nextScope 0
  have hne : ∀ h ∈ held, h ≠ (a.scopes.size : Nat) ∧ φ.handle h ≠ (b.scopes.size : Nat) := by
    intro h hh
    obtain ⟨sc, sc', hsc, hsc', -⟩ := A.scopes h hh
    constructor
    · rintro rfl
      rw [a.scope?_size] at hsc
      cases hsc
    · intro he
      rw [he, b.scope?_size] at hsc'
      cases hsc'
  refine ⟨?_, ?_, ⟨A.placed.1.add p side vars, A.placed.2.add p' side vars'⟩, fun k => ?_, A.nextWrite, ?_, ?_,
    fun j hj => ?_⟩
  · refine nodup_cons.mpr ⟨fun hmem => ?_, A.nodup⟩
    obtain ⟨h, hh, he⟩ := mem_map.mp hmem
    exact (hne h hh).2 (he.trans hnew)
  · refine forall_mem_cons.mpr ⟨?_, fun h hh => ?_⟩
    · rw [hnew, Arena.scope?_add, Arena.scope?_add, if_pos rfl, if_pos rfl]
      exact ⟨_, _, rfl, rfl, hvars, hnum⟩
    · rw [Arena.scope?_add, Arena.scope?_add, if_neg (hne h hh).1, if_neg (hne h hh).2]
      exact A.scopes h hh
  · simpa [Arena.add, Nat.add_assoc, Nat.add_comm 1] using A.nextScope (k + 1)
  · exact ⟨Nat.le_trans A.grown.1 (by simp [Arena.add]), A.grown.2⟩
  · refine forall_mem_cons.mpr ⟨?_, A.apart⟩
    rw [hnew]
    exact Int.ofNat_le.mpr A.grown.1
  · have hne : j ≠ (b.scopes.size : Nat) := Int.ne_of_lt (Int.lt_of_lt_of_le hj (Int.ofNat_le.mpr A.grown.1))
    rw [Arena.scope?_add, if_neg hne, A.foreign j hj]

theorem put (A : φ.Arenas held a b) (hh : h ∈ held) {sc sc' : Scope} (hplace : sc.handle = h)
    (hplace' : sc'.handle = φ.handle h) (hvars : sc.Renumbered φ.number sc')
    (hnum : sc.NumbersIn (· < a.nextWrite)) : φ.Arenas held (a.put sc) (b.put sc') := by
  obtain ⟨old, old', hold, hold', -⟩ := A.scopes h hh
  have hput := Arena.scope?_put_of_scope? hold hplace
  have hput' := Arena.scope?_put_of_scope? hold' hplace'
  refine ⟨A.nodup, fun k hk => ?_, ⟨A.placed.1.put sc, A.placed.2.put sc'⟩, ?_, ?_, ?_, A.apart, fun j hj => ?_⟩
  · rw [hput, hput', Arena.nextWrite_put]
    by_cases he : k = h
    · rw [if_pos he, if_pos (he ▸ rfl)]
      exact ⟨_, _, rfl, rfl, hvars, hnum⟩
    · rw [if_neg he, if_neg (mt (A.handle_inj hk hh).mp he)]
      exact A.scopes k hk
  · rw [Arena.size_put, Arena.size_put]
    exact A.nextScope
  · rw [Arena.nextWrite_put, Arena.nextWrite_put]
    exact A.nextWrite
  · rw [Arena.size_put, Arena.nextWrite_put]
    exact A.grown
  · rw [hput', if_neg (Int.ne_of_lt (Int.lt_of_lt_of_le hj (A.apart h hh))), A.foreign j hj]

theorem discard (A : φ.Arenas (k :: held) a b) : φ.Arenas held (a.discard k) (b.discard (φ.handle k)) := by
  refine ⟨(nodup_cons.mp A.nodup).2, fun h hh => ?_, ⟨A.placed.1.discard k, A.placed.2.discard _⟩, ?_, ?_, ?_,
    fun h hh => A.apart h (mem_cons_of_mem k hh), fun j hj => ?_⟩
  · rw [Arena.scope?_discard, Arena.scope?_discard, if_neg (A.handle_ne hh).1, if_neg (A.handle_ne hh).2,
      Arena.nextWrite_discard]
    exact A.scopes h (mem_cons_of_mem k hh)
  · rw [Arena.size_discard, Arena.size_discard]
    exact A.nextScope
  · rw [Arena.nextWrite_discard, Arena.nextWrite_discard]
    exact A.nextWrite
  · rw [Arena.size_discard, Arena.nextWrite_discard]
    exact A.grown
  · rw [Arena.scope?_discard, if_neg (Int.ne_of_lt (Int.lt_of_lt_of_le hj (A.apart k mem_cons_self))),
      A.foreign j hj]

theorem discards (A : φ.Arenas (ks ++ held) a b) :
    φ.Arenas held (ks.foldl Arena.discard a) ((ks.map φ.handle).foldl Arena.discard b) := by
  induction ks generalizing a b with
  | nil => exact A
  | cons k ks ih => exact ih A.discard

theorem exists_arms (A : φ.Arenas held a b) (hks : ∀ k ∈ ks, k ∈ held) : ∃ arms arms',
    List.Forall₂ (fun k arm => a.scope? k = some arm) ks arms ∧
    List.Forall₂ (fun k arm => b.scope? k = some arm) (ks.map φ.handle) arms' ∧
    List.Forall₂ (Scope.Renumbered φ.number) arms arms' ∧ ∀ arm ∈ arms, arm.NumbersIn (· < a.nextWrite) := by
  induction ks with
  | nil => exact ⟨[], [], .nil, .nil, .nil, by simp⟩
  | cons k ks ih =>
    rw [forall_mem_cons] at hks
    obtain ⟨sc, sc', hsc, hsc', hvars, hnum⟩ := A.scopes k hks.1
    obtain ⟨arms, arms', h, h', harms, hnums⟩ := ih hks.2
    exact ⟨sc :: arms, sc' :: arms', .cons hsc h, .cons hsc' h', .cons hvars harms,
      forall_mem_cons.mpr ⟨hnum, hnums⟩⟩

theorem merge (A : φ.Arenas (ks ++ held) a b) (hh : h ∈ held) : ∃ a₁ b₁, a.merge h ks = .ok a₁ ∧
    b.merge (φ.handle h) (ks.map φ.handle) = .ok b₁ ∧ φ.Arenas held a₁ b₁ := by
  have hmem : h ∈ ks ++ held := mem_append_right ks hh
  obtain ⟨sc, sc', hsc, hsc', hvars, hnum⟩ := A.scopes h hmem
  obtain ⟨arms, arms', harms, harms', hrel, hnums⟩ := A.exists_arms fun k hk => mem_append_left held hk
  refine ⟨_, _, Arena.merge_eq hsc harms, Arena.merge_eq hsc' harms', (A.put hmem ?_ ?_ ?_ ?_).discards⟩
  · exact A.placed.1 h sc hsc
  · exact A.placed.2 _ sc' hsc'
  · exact hvars.merge φ.number_injective hrel
  · exact hnum.merge hnums

/-- Both analyses make a write. -/
theorem count (A : φ.Arenas held a b) :
    φ.Arenas held { a with nextWrite := a.nextWrite + 1 } { b with nextWrite := b.nextWrite + 1 } where
  nodup := A.nodup
  scopes h hh := by
    obtain ⟨sc, sc', hsc, hsc', hvars, hnum⟩ := A.scopes h hh
    exact ⟨sc, sc', hsc, hsc', hvars, hnum.mono fun _ => Nat.lt_succ_of_lt⟩
  placed := A.placed
  nextScope := A.nextScope
  nextWrite k := by
    rw [Nat.add_right_comm, Nat.add_right_comm b.nextWrite]
    exact A.nextWrite (k + 1)
  grown := ⟨A.grown.1, Nat.le_succ_of_le A.grown.2⟩
  apart := A.apart
  foreign := A.foreign

end Pairing.Arenas

section Stacks

variable {c : Context} {st : List Handle}

theorem State.scopes_of_stack (h : s.stack = c.around st) : s.currentFrame.scopes = st := by
  rw [State.currentFrame_scopes, h]
  cases c <;> rfl

theorem State.stack_updateFrame (h : s.stack = c.around st) (g : List Handle → List Handle) :
    (s.updateFrame fun f => { f with scopes := g f.scopes }).stack = c.around (g st) := by
  cases c <;> cases hf : s.frames <;> simp_all [State.stack, State.updateFrame, Context.around]

theorem Step.leaveScope_of_stack {k : Handle} (h : s.stack = c.around (k :: st)) :
    Step.leaveScope k s = (.ok (), s.updateFrame fun f => { f with scopes := st }) := by
  simp [Step.leaveScope, Step.popScope, State.scopes_of_stack h, Bind.bind, Step.bind, Step.pure]

end Stacks

def Pairing.At (φ : Pairing) (st : List Handle) (s t : State) : Prop :=
  s.stack = φ.leftOuter.around st ∧ t.stack = φ.rightOuter.around (st.map φ.handle)

/-- Both analyses see the same, hold the same scopes and work in one of them, and they have found the same. -/
structure Mirrors (φ : Pairing) (o : Outlook) (st held : List Handle) (s t : State) : Prop where
  arenas : φ.Arenas held s.arena t.arena
  place : φ.At st s t
  current : ∃ h ∈ held, st.head? = some h
  outlook : s.outlook = o ∧ t.outlook = o
  undocumented : o.pendingDoc = none
  sinks : ∃ found : List Issue, s.sink = found.foldl Sink.emit φ.leftSink ∧
    t.sink = found.foldl Sink.emit φ.rightSink

/-- The answers correspond as `g` says, and the scopes `own` of the answer are held besides those from before. -/
def Moved {α β : Type} (φ : Pairing) (o : Outlook) (st held : List Handle) (g : α → β) (own : α → List Handle)
    (a : α) (s : State) (b : β) (t : State) : Prop :=
  b = g a ∧ Mirrors φ o st (own a ++ held) s t

namespace Mirrors

variable {o o' : Outlook} {st st' held' : List Handle}
variable (w : Mirrors φ o st held s t)

include w

theorem working : ∃ h sc sc', h ∈ held ∧ s.Working h sc ∧
    t.Working (φ.handle h) sc' ∧ sc.Renumbered φ.number sc' ∧ sc.NumbersIn (· < s.arena.nextWrite) := by
  obtain ⟨h, hh, hst⟩ := w.current
  obtain ⟨rest, rfl⟩ := head?_eq_some_iff.mp hst
  obtain ⟨sc, sc', hsc, hsc', hvars, hnum⟩ := w.arenas.scopes h hh
  have hs := State.scopes_of_stack w.place.1
  have ht := State.scopes_of_stack w.place.2
  exact ⟨h, sc, sc', hh, ⟨by rw [State.currentHandle, hs], hsc, w.arenas.placed.1⟩,
    ⟨by rw [State.currentHandle, ht]; rfl, hsc', w.arenas.placed.2⟩, hvars, hnum⟩

theorem onArena {a b : Arena} (A : φ.Arenas held' a b)
    (hcur : ∃ h ∈ held', st.head? = some h) :
    Mirrors φ o st held' { s with arena := a } { t with arena := b } :=
  ⟨A, w.place, hcur, w.outlook, w.undocumented, w.sinks⟩

theorem perm (hp : held'.Perm held) : Mirrors φ o st held' s t := by
  obtain ⟨h, hh, hst⟩ := w.current
  exact w.onArena (w.arenas.perm hp) ⟨h, hp.mem_iff.mpr hh, hst⟩

/-- Something changes that concerns neither scopes nor issues. -/
theorem congr (hs : s₁.arena = s.arena ∧ s₁.sink = s.sink)
    (ht : t₁.arena = t.arena ∧ t₁.sink = t.sink) (hplace : φ.At st' s₁ t₁)
    (hcur : ∃ h ∈ held, st'.head? = some h) (ho : s₁.outlook = o' ∧ t₁.outlook = o')
    (hdoc : o'.pendingDoc = none) : Mirrors φ o' st' held s₁ t₁ := by
  refine ⟨?_, hplace, hcur, ho, hdoc, ?_⟩
  · rw [hs.1, ht.1]
    exact w.arenas
  · rw [hs.2, ht.2]
    exact w.sinks

theorem restack (g g' : List Handle → List Handle)
    (hg : g' (st.map φ.handle) = (g st).map φ.handle) (hcur : ∃ h ∈ held, (g st).head? = some h) :
    Mirrors φ o (g st) held (s.updateFrame fun f => { f with scopes := g f.scopes })
      (t.updateFrame fun f => { f with scopes := g' f.scopes }) := by
  have hs := State.rest_updateFrame_scopes s g
  have ht := State.rest_updateFrame_scopes t g'
  refine w.congr ⟨State.arena_updateFrame s _, State.sink_of_rest hs⟩
    ⟨State.arena_updateFrame t _, State.sink_of_rest ht⟩ ⟨State.stack_updateFrame w.place.1 g, ?_⟩ hcur
    ⟨(State.outlook_of_rest hs).trans w.outlook.1, (State.outlook_of_rest ht).trans w.outlook.2⟩ w.undocumented
  rw [State.stack_updateFrame w.place.2 g', hg]

/-- More issues are found. -/
theorem note (found : List Issue) :
    Mirrors φ o st held { s with sink := found.foldl Sink.emit s.sink }
      { t with sink := found.foldl Sink.emit t.sink } := by
  obtain ⟨before, hs, ht⟩ := w.sinks
  refine ⟨w.arenas, w.place, w.current, w.outlook, w.undocumented, before ++ found, ?_, ?_⟩
  · rw [foldl_append, ← hs]
  · rw [foldl_append, ← ht]

/-- All that can be asked about variables has the same answer in both analyses. -/
theorem agree (V : String → Prop) : State.Agree V s t := by
  obtain ⟨h, sc, sc', -, hw, hw', hvars, -⟩ := w.working
  have ho : t.outlook = s.outlook := w.outlook.2.trans w.outlook.1.symm
  exact ⟨congrArg Outlook.file ho, congrArg Outlook.bearings ho, sc, sc', State.currentScope_eq hw,
    State.currentScope_eq hw', fun x _ => ⟨hvars.flowType x, hvars.flowValue x⟩⟩

end Mirrors

namespace Step

variable {α β : Type}
variable {o : Outlook} {st : List Handle} {E : State → State → Prop} {k : Handle}

theorem Twin.branch (w : Mirrors φ o st held s t) (hk : k ∈ held) (side : BranchSide) :
    Twin (Step.branch k side) (Step.branch (φ.handle k) side) s t
      (Moved φ o st held φ.handle fun k => [k]) E := by
  obtain ⟨sc, sc', hsc, hsc', hvars, hnum⟩ := w.arenas.scopes k hk
  obtain ⟨h, hh, hst⟩ := w.current
  have hrun {u : State} {j : Handle} {r : Scope} (hr : u.arena.scope? j = some r) : Step.branch j side u =
      (.ok (u.arena.scopes.size : Nat), { u with arena := (u.arena.add (some j) side r.vars).2 }) := by
    rw [Step.branch, Step.onArena, Arena.branch_eq hr]
    rfl
  exact .both (hrun hsc) (hrun hsc') ⟨(w.arenas.nextScope 0).symm,
    w.onArena (w.arenas.add hvars hnum _ _ side) ⟨h, mem_cons_of_mem _ hh, hst⟩⟩

theorem Twin.touch (w : Mirrors φ o st held s t) (hk : k ∈ held) (name : String) {f : Variable → Variable}
    (hf : Variable.Unconcerned f) :
    Twin (Step.onArena fun a => (a.updateVar k name f).map fun b => ((), b))
      (Step.onArena fun a => (a.updateVar (φ.handle k) name f).map fun b => ((), b)) s t
      (Moved φ o st held id fun _ => []) E := by
  obtain ⟨sc, sc', hsc, hsc', hvars, hnum⟩ := w.arenas.scopes k hk
  refine .both (by rw [Step.onArena, Arena.updateVar_eq hsc]; rfl)
    (by rw [Step.onArena, Arena.updateVar_eq hsc']; rfl) ⟨rfl, w.onArena (w.arenas.put hk ?_ ?_ ?_ ?_) w.current⟩
  · exact w.arenas.placed.1 k sc hsc
  · exact w.arenas.placed.2 _ sc' hsc'
  · exact hvars.updateVar (hf.renumber φ.number) name
  · exact hnum.updateVar (fun v hv => ⟨by rw [hf.history]; exact hv.1, by rw [hf.live]; exact hv.2⟩) name

theorem Twin.merge {ks : List Handle} (w : Mirrors φ o st (ks ++ held) s t) (hk : k ∈ held)
    (hcur : ∃ h ∈ held, st.head? = some h) :
    Twin (Step.merge k ks) (Step.merge (φ.handle k) (ks.map φ.handle)) s t (Moved φ o st held id fun _ => []) E := by
  obtain ⟨a, b, ha, hb, A⟩ := w.arenas.merge hk
  exact .both (by rw [Step.merge, Step.onArena, ha]; rfl) (by rw [Step.merge, Step.onArena, hb]; rfl)
    ⟨rfl, w.onArena A hcur⟩

/-- A held scope is entered, something is done in it, and it is left, however that ends. -/
theorem Twin.inScope {m : Step α} {n : Step β} {g : α → β} {own : α → List Handle} (w : Mirrors φ o st held s t)
    (hk : k ∈ held) (h : ∀ s₁ t₁, Mirrors φ o (k :: st) held s₁ t₁ →
      Twin m n s₁ t₁ (Moved φ o (k :: st) held g own) (φ.At (k :: st))) :
    Twin (Step.inScope k m) (Step.inScope (φ.handle k) n) s t (Moved φ o st held g own) (φ.At st) := by
  obtain ⟨j, hj, hst⟩ := w.current
  have w₁ := w.restack (k :: ·) (φ.handle k :: ·) rfl ⟨k, hk, rfl⟩
  obtain ⟨sc, sc', hsc, hsc', -⟩ := w₁.arenas.scopes k hk
  apply Twin.bind
  refine .modify (.ensuring (.bind (.getFault (Arena.get_of_scope? hsc) (Arena.get_of_scope? hsc') ?_)))
  refine (h _ _ w₁).mono ?_ ?_
  · rintro a s₂ b t₂ ⟨hb, w₂⟩
    exact .both (leaveScope_of_stack w₂.place.1) (leaveScope_of_stack w₂.place.2) ⟨hb, w₂.restack (fun _ => st)
      (fun _ => st.map φ.handle) rfl ⟨j, mem_append_right _ hj, hst⟩⟩
  · rintro s₂ t₂ ⟨hs, ht⟩
    exact .both (leaveScope_of_stack hs) (leaveScope_of_stack ht) ⟨State.stack_updateFrame hs fun _ => st,
      State.stack_updateFrame ht fun _ => st.map φ.handle⟩

/-- Wherever two analyses work side by side, they do so still after the step and have the same answer. -/
def Parallel (m : Step α) : Prop :=
  ∀ ⦃φ o st held s t⦄, Mirrors φ o st held s t → Twin m m s t (Moved φ o st held id fun _ => []) (φ.At st)

namespace Parallel

variable {m : Step α} {f : α → Step β}

theorem pure (a : α) : (Pure.pure a : Step α).Parallel := fun _ _ _ _ _ _ w => .pure ⟨rfl, w⟩

theorem bind (hm : m.Parallel) (hf : ∀ a, (f a).Parallel) : (m >>= f).Parallel := by
  intro φ o st held s t w
  refine Twin.chain (hm w) ?_
  rintro _ s₁ a t₁ ⟨rfl, w₁⟩
  exact hf a w₁

theorem guarded (hm : m.Parallel) (r : Range) (fallback : α) : (Step.guarded r fallback m).Parallel :=
  fun _ _ _ _ _ _ w => (hm w).guarded r r fallback fallback

theorem inScope (hm : m.Parallel) (w : Mirrors φ o st held s t) (hk : k ∈ held) :
    Twin (Step.inScope k m) (Step.inScope (φ.handle k) m) s t (Moved φ o st held id fun _ => []) (φ.At st) :=
  .inScope w hk fun _ _ w₁ => hm w₁

theorem query {q : Query α} (hq : q.NumericFaults) (hd : q.Depends fun _ => True) : (Step.query q).Parallel :=
  fun _ _ _ _ s t w => .query hq (hd s t (w.agree _)) (fun _ found => ⟨rfl, w.note found⟩) fun _ => w.place

theorem report (kind : IssueKind) (message : String) (range : Option Range) :
    (Step.report kind message range).Parallel :=
  query (.report kind message range) (.report kind message range)

theorem get {g : State → α} (hg : ∀ s t : State, t.outlook = s.outlook → g t = g s) : (Step.get g).Parallel :=
  fun _ _ _ _ s t w => .get ⟨hg s t (w.outlook.2.trans w.outlook.1.symm), w⟩

/-- What is done with the current scope depends on nothing but its variables, and not on the numbers of
their writes. -/
theorem currentScope {f : Scope → Step α}
    (hsame : ∀ (ρ : Nat → Nat) (sc sc' : Scope), sc.Renumbered ρ sc' → f sc' = f sc)
    (hf : ∀ sc, (f sc).Parallel) : (Step.getFault State.currentScope >>= f).Parallel := by
  intro φ o st held s t w
  obtain ⟨h, sc, sc', -, hw, hw', hvars, -⟩ := w.working
  apply Twin.bind
  refine .getFault (State.currentScope_eq hw) (State.currentScope_eq hw') ?_
  rw [hsame _ _ _ hvars]
  exact hf sc w

theorem updateVar (name : String) {f : Variable → Variable} (hf : Variable.Unconcerned f) :
    (Step.updateVar name f).Parallel := by
  intro φ o st held s t w
  obtain ⟨h, sc, sc', hh, hw, hw', -⟩ := w.working
  exact .bind (.getFault hw.handle hw'.handle (.touch w hh name hf))

theorem write (name : String) (u : TypeUnion) (x : Option Value) (r : Option Range) :
    (Step.write name u x r).Parallel := by
  intro φ o st held s t w
  obtain ⟨h, sc, sc', hh, hw, hw', hvars, hnum⟩ := w.working
  have hnext : φ.number s.arena.nextWrite = t.arena.nextWrite := w.arenas.nextWrite 0
  -- The number is given before the variable is written.
  have hput (a : Arena) (q : Scope) :
      ({ a.put q with nextWrite := a.nextWrite + 1 } : Arena) = { a with nextWrite := a.nextWrite + 1 }.put q := by
    have hlive : ({ a with nextWrite := a.nextWrite + 1 } : Arena).isLive q.handle = a.isLive q.handle := rfl
    unfold Arena.put
    rw [hlive]
    split <;> rfl
  have hrun {v : State} {k : Handle} {q : Scope} (hv : v.arena.scope? k = some q) :
      Step.onArena (fun a => (a.write k name u x r).map fun p => ((), p.2)) v = (.ok (), { v with
        arena := { v.arena with nextWrite := v.arena.nextWrite + 1 }.put
          (q.updateVar name (·.write ⟨v.arena.nextWrite, u, x, r⟩)) }) := by
    rw [Step.onArena, Arena.write_eq hv, ← hput]
    rfl
  refine .bind (.getFault hw.handle hw'.handle (.both (hrun hw.scope) (hrun hw'.scope)
    ⟨rfl, w.onArena (w.arenas.count.put hh ?_ ?_ ?_ ?_) w.current⟩))
  · exact hw.placed h sc hw.scope
  · exact hw'.placed _ sc' hw'.scope
  · refine hvars.updateVar (fun v => ?_) name
    rw [Variable.renumber_write, Write.renumber, hnext]
  · exact (hnum.mono fun _ => Nat.lt_succ_of_lt).updateVar (fun v hv => hv.write (Nat.lt_succ_self _)) name

/-- A change that concerns neither scopes nor issues, nor what is seen besides. -/
theorem modify {g : State → State} (hg : ∀ s, (g s).arena = s.arena ∧ (g s).sink = s.sink)
    (hst : ∀ s, (g s).stack = s.stack)
    (ho : ∀ s, s.outlook.pendingDoc = none → (g s).outlook = s.outlook) : (Step.modify g).Parallel := by
  intro φ o st held s t w
  have hsame {u : State} (hu : u.outlook = o) : (g u).outlook = o := by
    rw [ho u (by rw [hu, w.undocumented]), hu]
  exact .modify ⟨rfl, w.congr (hg s) (hg t) ⟨(hst s).trans w.place.1, (hst t).trans w.place.2⟩ w.current
    ⟨hsame w.outlook.1, hsame w.outlook.2⟩ w.undocumented⟩

theorem inLoop (hm : m.Parallel) : (Step.inLoop m).Parallel := by
  intro φ o st held s t w
  have hdepth (u : State) :
      (enterLoop u).outlook = { u.outlook with loopDepth := u.outlook.loopDepth + 1 } := rfl
  have hback (u : State) : (leaveLoop u).outlook = { u.outlook with loopDepth := u.outlook.loopDepth - 1 } := rfl
  have w₁ : Mirrors φ { o with loopDepth := o.loopDepth + 1 } st held (enterLoop s) (enterLoop t) :=
    w.congr ⟨rfl, rfl⟩ ⟨rfl, rfl⟩ w.place w.current
      ⟨by rw [hdepth, w.outlook.1], by rw [hdepth, w.outlook.2]⟩ w.undocumented
  refine .bind (.modify (.ensuring ((hm w₁).mono ?_ fun _ _ hat => .modify hat)))
  rintro a s₂ b t₂ ⟨hb, w₂⟩
  refine .modify ⟨hb, w₂.congr ⟨rfl, rfl⟩ ⟨rfl, rfl⟩ w₂.place w₂.current ⟨?_, ?_⟩ w.undocumented⟩
  · rw [hback, w₂.outlook.1]
    rfl
  · rw [hback, w₂.outlook.2]
    rfl

end Parallel

end Step

end PhpFlow
