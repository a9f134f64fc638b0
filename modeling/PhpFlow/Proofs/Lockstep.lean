import PhpFlow.Proofs.Alongside
import PhpFlow.Proofs.Integrity

/-!
# Constructs side by side

Two analyses that work side by side make the same branches, narrow the same variables in them, and merge
them into scopes with the same variables. So what holds of single steps holds of constructs, and code that
declares nothing has the same outcome in both.
-/
namespace PhpFlow

open List

theorem Asked.parallel {α : Type} {q : Query α} (hq : Asked q) : (Step.query q).Parallel :=
  .query hq.orderly.faults (hq.induction (queryClosed_depends _))

namespace Step

variable {φ : Pairing} {o : Outlook} {st held : List Handle} {s t : State} {k : Handle}

section Operations

variable (w : Mirrors φ o st held s t) (hk : k ∈ held)

include w hk

theorem Twin.narrowVariable (side : BranchSide) (name : String) (refine : Option TypeUnion → Option TypeUnion) :
    Twin (narrowVariable k side name refine) (narrowVariable (φ.handle k) side name refine) s t
      (Moved φ o st held (Option.map φ.handle) Option.toList) (φ.At st) := by
  obtain ⟨sc, sc', hsc, hsc', hvars, -⟩ := w.arenas.scopes k hk
  apply Twin.bind
  refine .getFault (Arena.get_of_scope? hsc) (Arena.get_of_scope? hsc') ?_
  rw [hvars.var?]
  cases sc.var? name with
  | none => exact .pure ⟨rfl, w⟩
  | some v =>
    dsimp only [Option.map_some]
    rw [v.flowType_renumber]
    split
    · exact .pure ⟨rfl, w⟩
    · refine Twin.chain (.branch w hk side) ?_
      rintro j s₁ _ t₁ ⟨rfl, w₁⟩
      refine Twin.chain (.touch w₁ mem_cons_self name fun _ _ _ => rfl) ?_
      rintro _ s₂ _ t₂ ⟨-, w₂⟩
      exact .pure ⟨rfl, w₂⟩

theorem Twin.narrowNull (r : Range) (a b : Expr) (op : Operator) (side : BranchSide) :
    Twin (op.narrowNull (.ofExprs r a b a.meaning b.meaning) k side)
      (op.narrowNull (.ofExprs r a b a.meaning b.meaning) (φ.handle k) side) s t
      (Moved φ o st held (Option.map φ.handle) Option.toList) (φ.At st) := by
  refine Twin.chain ((Asked.value b).parallel w) ?_
  rintro _ s₁ right t₁ ⟨rfl, w₁⟩
  extract_lets isNullSide last last'
  -- Once it is known which variable is compared with null, if any, it is narrowed.
  have hlast (name : Option String) {s₂ t₂ : State} (w₂ : Mirrors φ o st held s₂ t₂) :
      Twin (last name) (last' name) s₂ t₂ (Moved φ o st held (Option.map φ.handle) Option.toList) (φ.At st) := by
    cases name with
    | none => exact .pure ⟨rfl, w₂⟩
    | some n => exact .narrowVariable w₂ hk side n _
  split
  · exact .bind (.pure (hlast _ w₁))
  · refine Twin.chain ((Asked.value a).parallel w₁) ?_
    rintro _ s₂ left t₂ ⟨rfl, w₂⟩
    split
    · exact .bind (.pure (hlast _ w₂))
    · exact .bind (.pure (hlast none w₂))

theorem Twin.narrowInstance (r : Range) (a b : Expr) (side : BranchSide) :
    Twin (Operator.narrowInstance (.ofExprs r a b a.meaning b.meaning) k side)
      (Operator.narrowInstance (.ofExprs r a b a.meaning b.meaning) (φ.handle k) side) s t
      (Moved φ o st held (Option.map φ.handle) Option.toList) (φ.At st) := by
  have hderives : (Step.get fun s => s.symbols.derives).Parallel :=
    .get fun s t h => State.derives_of_bearings (congrArg Outlook.bearings h)
  refine Twin.chain ((Asked.className b).parallel w) ?_
  rintro _ s₁ c t₁ ⟨rfl, w₁⟩
  split
  · refine Twin.chain (hderives w₁) ?_
    rintro _ s₂ derives t₂ ⟨rfl, w₂⟩
    exact .narrowVariable w₂ hk side _ _
  · exact .pure ⟨rfl, w₁⟩

end Operations

theorem Twin.narrow (c : Expr) {st held : List Handle} {s t : State} {k : Handle} (w : Mirrors φ o st held s t)
    (hk : k ∈ held) (side : BranchSide) :
    Twin (c.narrow k side) (c.narrow (φ.handle k) side) s t
      (Moved φ o st held (Option.map φ.handle) Option.toList) (φ.At st) := by
  cases c with
  | paren r a => exact Twin.narrow a w hk side
  | unary r op a =>
    simp only [Expr.narrow]
    split
    · exact Twin.narrow a w hk side.flip
    · exact Twin.pure ⟨rfl, w⟩
  | var r n => exact Twin.narrowVariable w hk side n (refineTruth side)
  | binary r a token c =>
    simp only [Expr.narrow]
    split
    · exact Twin.pure ⟨rfl, w⟩
    · next op hop =>
      split
      · refine Twin.chain (Twin.narrow a w hk side) ?_
        rintro first s₁ _ t₁ ⟨rfl, w₁⟩
        have hbase : first.getD k ∈ first.toList ++ held := by cases first <;> simp [hk]
        have hget : (first.map φ.handle).getD (φ.handle k) = φ.handle (first.getD k) := by cases first <;> rfl
        rw [hget]
        refine Twin.chain (.inScope w₁ hbase fun _ _ w' => Twin.narrow c w' hbase side) ?_
        rintro second s₂ _ t₂ ⟨rfl, w₂⟩
        cases second with
        | none => cases first <;> exact .pure ⟨rfl, w₂⟩
        | some j =>
          cases first with
          | none => exact .pure ⟨rfl, w₂⟩
          | some i =>
            obtain ⟨h, hh, hst⟩ := w.current
            refine .bind (.modify (.pure ⟨rfl, w₂.onArena (w₂.arenas.perm (.swap j i held)).discard ?_⟩))
            exact ⟨h, mem_cons_of_mem j hh, hst⟩
      · refine .inScope w hk fun s₁ t₁ w₁ => ?_
        cases op with
        | equal | notEqual | identical | notIdentical => exact Twin.narrowNull w₁ hk r a c _ side
        | instanceOf => exact Twin.narrowInstance w₁ hk r a c side
        | _ => exact Twin.pure ⟨rfl, w₁⟩
  | _ => exact Twin.pure ⟨rfl, w⟩

def Branching (m : Step Handle) : Prop :=
  ∀ ⦃φ o st held s t⦄, Mirrors φ o st held s t →
    Twin m m s t (Moved φ o st held φ.handle fun k => [k]) (φ.At st)

end Step

open Step in
theorem MakesBranch.branching {m : Step Handle} (hm : MakesBranch m) : m.Branching := by
  intro φ o st held s t w
  obtain ⟨h, _, _, hh, hw, hw', -⟩ := w.working
  cases hm with
  | current side => exact .bind (.getFault hw.handle hw'.handle (.branch w hh side))
  | condition c side =>
    refine .bind (.getFault hw.handle hw'.handle (Twin.chain (Twin.narrow c w hh side) ?_))
    rintro r s₁ _ t₁ ⟨rfl, w₁⟩
    cases r with
    | none => exact .branch w₁ hh side
    | some k => exact .pure ⟨rfl, w₁⟩

namespace Step.Parallel

variable {ms : List (Step Bool)}

/-- Work in two new branches, which are merged afterwards. -/
theorem fork {first : Step Handle} {second : Handle → Step Handle} {work : Handle → Handle → Step Bool}
    (hfirst : first.Branching) (hsecond : ∀ {φ o st held s t h}, Mirrors φ o st held s t → h ∈ held →
      Twin (second h) (second (φ.handle h)) s t (Moved φ o st held φ.handle fun k => [k]) (φ.At st))
    (hwork : ∀ {φ o st held s t k₁ k₂}, Mirrors φ o st held s t → k₁ ∈ held → k₂ ∈ held →
      Twin (work k₁ k₂) (work (φ.handle k₁) (φ.handle k₂)) s t (Moved φ o st held id fun _ => []) (φ.At st)) :
    (Step.fork first second work).Parallel := by
  intro φ o st held s t w
  obtain ⟨h, _, _, hh, hw, hw', -⟩ := w.working
  refine .bind (.getFault hw.handle hw'.handle (Twin.chain (hfirst w) ?_))
  rintro k₁ s₁ _ t₁ ⟨rfl, w₁⟩
  refine Twin.chain (hsecond w₁ (mem_cons_of_mem _ hh)) ?_
  rintro k₂ s₂ _ t₂ ⟨rfl, w₂⟩
  refine Twin.chain (hwork w₂ (by simp) (by simp)) ?_
  rintro _ s₃ ok t₃ ⟨rfl, w₃⟩
  refine Twin.chain (.merge (w₃.perm (.swap k₂ k₁ held)) hh w.current) ?_
  rintro _ s₄ _ t₄ ⟨-, w₄⟩
  exact .pure ⟨rfl, w₄⟩

theorem detour {makeBranch : Step Handle} {body : Step Bool} (hmake : makeBranch.Branching)
    (hbody : body.Parallel) (side : BranchSide) : (Step.detour makeBranch side body).Parallel :=
  fork hmake (fun w hh => .branch w hh side) fun w hk _ => hbody.inScope w hk

theorem choice (c : Expr) {onTrue onFalse : Step Bool} (htrue : onTrue.Parallel) (hfalse : onFalse.Parallel) :
    (Step.choice c onTrue onFalse).Parallel := by
  refine fork (MakesBranch.condition c .onTrue).branching
    (fun w _ => (MakesBranch.condition c .onFalse).branching w) fun w hk₁ hk₂ => ?_
  refine Twin.chain (htrue.inScope w hk₁) ?_
  rintro _ s₁ ok t₁ ⟨rfl, w₁⟩
  cases ok with
  | false => exact .pure ⟨rfl, w₁⟩
  | true => exact hfalse.inScope w₁ hk₂

/-- Arms one after the other, up to one that has to stop. -/
theorem analyzeArms (hms : ∀ m ∈ ms, m.Parallel) {φ : Pairing} {o : Outlook} {st held : List Handle} {s t : State}
    {h : Handle} (w : Mirrors φ o st held s t) (hh : h ∈ held) :
    Twin (PhpFlow.analyzeArms h ms) (PhpFlow.analyzeArms (φ.handle h) ms) s t
      (Moved φ o st held (Prod.map id (List.map φ.handle)) Prod.snd) (φ.At st) := by
  induction ms generalizing held s t with
  | nil => exact .pure ⟨rfl, w⟩
  | cons m ms ih =>
    rw [forall_mem_cons] at hms
    apply Twin.bind
    refine Twin.chain (.branch w hh .neutral) ?_
    rintro k s₁ _ t₁ ⟨rfl, w₁⟩
    refine Twin.chain (hms.1.inScope w₁ mem_cons_self) ?_
    rintro _ s₂ ok t₂ ⟨rfl, w₂⟩
    refine .pure ?_
    cases ok with
    | false => exact .pure ⟨rfl, w₂⟩
    | true =>
      refine Twin.chain (ih hms.2 w₂ (mem_cons_of_mem k hh)) ?_
      rintro ⟨ok, ks⟩ s₃ _ t₃ ⟨rfl, w₃⟩
      exact .pure ⟨rfl, w₃.perm perm_middle.symm⟩

theorem switchArms (hasDefault : Bool) (hms : ∀ m ∈ ms, m.Parallel) :
    (PhpFlow.switchArms hasDefault ms).Parallel := by
  intro φ o st held s t w
  obtain ⟨h, _, _, hh, hw, hw', -⟩ := w.working
  refine .bind (.getFault hw.handle hw'.handle (Twin.chain (analyzeArms hms w hh) ?_))
  rintro ⟨ok, ks⟩ s₁ _ t₁ ⟨rfl, w₁⟩
  have hmerge {l : List Handle} {s₂ t₂ : State} (w₂ : Mirrors φ o st (ks ++ l ++ held) s₂ t₂) :
      Twin (do Step.merge h (ks ++ l); return ok : Step Bool)
        (do Step.merge (φ.handle h) (ks.map φ.handle ++ l.map φ.handle); return ok : Step Bool) s₂ t₂
        (Moved φ o st held id fun _ => []) (φ.At st) := by
    rw [← map_append]
    refine Twin.chain (.merge w₂ hh w.current) ?_
    rintro _ s₃ _ t₃ ⟨-, w₃⟩
    exact .pure ⟨rfl, w₃⟩
  cases hasDefault with
  | true => exact .bind (.pure (hmerge (l := []) (by simpa using w₁)))
  | false =>
    refine Twin.chain (.branch w₁ (mem_append_right ks hh) .neutral) ?_
    rintro k s₂ _ t₂ ⟨rfl, w₂⟩
    refine .bind (.pure (hmerge (l := [k]) (w₂.perm ?_)))
    rw [append_assoc]
    exact perm_middle

end Step.Parallel

section Leaves

theorem parallel_readVariable (r : Range) (n : String) : (readVariable r n).Parallel := by
  have hmark : (Step.updateVar n fun v => { v with reportedUnknown := true }).Parallel :=
    .updateVar n fun _ _ _ => rfl
  have hread : (Step.updateVar n fun v => v.read (some r)).Parallel := .updateVar n fun _ _ _ => rfl
  have hunknown (reported : Bool) : (reportUnknown r n reported).Parallel := by
    cases reported with
    | true => exact hmark
    | false => exact .bind (.report _ _ _) fun _ => hmark
  unfold readVariable
  split
  · exact .pure ()
  · refine .guarded (.currentScope (fun ρ sc sc' h => ?_) fun sc => ?_) r ()
    · rw [h.var?]
      cases sc.var? n <;> rfl
    · dsimp only
      split
      · exact .bind (hunknown false) fun _ => hread
      · split
        · exact .bind (hunknown _) fun _ => hread
        · split
          · exact .bind (.report _ _ _) fun _ => hread
          · exact hread

theorem parallel_keepValue (v : Option Value) : (keepValue v).Parallel := by
  refine .get fun s t h => ?_
  have hdepth : t.loopDepth = s.loopDepth := congrArg Outlook.loopDepth h
  have hconfig : t.config = s.config := congrArg Outlook.config h
  rw [hdepth, hconfig]

theorem parallel_writeElement (r : Range) (base : Expr) (index : Option Expr) (u : TypeUnion) :
    (writeElement r base index u).Parallel := by
  unfold writeElement
  split
  · exact .report _ _ _
  · refine .currentScope (fun ρ sc sc' h => ?_) fun sc => .write _ _ _ _
    rw [h.flowType]

theorem parallel_applyDoc (assigned : Option String) : (applyDoc assigned).Parallel := by
  intro φ o st held s t w
  have hrun {u : State} (hu : u.outlook = o) : applyDoc assigned u = (.ok (), u) := by
    have hdoc : u.pendingDoc = none := (congrArg Outlook.pendingDoc hu).trans w.undocumented
    cases u
    subst hdoc
    rfl
  exact .both (hrun w.outlook.1) (hrun w.outlook.2) ⟨rfl, w⟩

theorem parallel_addReturn (u : TypeUnion) (v : Option Value) : (addReturn u v).Parallel := by
  refine .modify (fun s => ?_) (fun s => ?_) fun s _ => ?_
  all_goals cases hf : s.frames <;> simp [State.updateFrame, State.stack, State.outlook, State.bearings, hf]

theorem parallel_declareGlobals (vs : List VariableName) : (declareGlobals vs).Parallel := by
  induction vs with
  | nil => exact .currentScope (fun _ _ _ _ => rfl) fun _ => .pure ()
  | cons v vs ih =>
    refine .bind (.updateVar _ fun _ _ _ => rfl) fun _ => .currentScope (fun ρ sc sc' h => ?_) fun sc => ?_
    · rw [h.var?]
      cases sc.var? v.name <;> rfl
    · dsimp only
      split
      · exact .bind (.write _ _ _ _) fun _ => ih
      · exact ih

theorem parallel_caughtType (types : List String) : (Step.get (caughtType types)).Parallel := by
  refine .get fun s t h => ?_
  simp only [caughtType, State.resolveClass_of_bearings (congrArg Outlook.bearings h)]

end Leaves

def plainCode : NodeTest where
  expr
    | .call _ f as => (definition? f as).isNone
    | _ => true
  stmt
    | .function _ | .method _ | .class_ _ _ _ _ _ _ | .namespace_ _ _ _ | .use _ _ | .const _ _ => false
    | .comment _ t => !t.startsWith "/**"
    | _ => true

theorem storeClosed_parallel : StoreClosed fun _ _ m => m.Parallel where
  pure := .pure
  bind := .bind
  query := Asked.parallel
  keepValue := parallel_keepValue
  write n u v r := .bind (parallel_keepValue v) fun v => .write n u v r
  writeElement := parallel_writeElement
  caughtType := parallel_caughtType

theorem analysisClosed_parallel :
    AnalysisClosed plainCode (fun _ => True) .nothing (fun _ _ _ m => m.Parallel) fun _ _ m => m.Parallel where
  lawful := Grade.lawful_nothing
  pure := .pure
  bind := .bind
  type e := (Asked.type e).parallel
  value e := (Asked.value e).parallel
  missing := .report _
  readVariable := parallel_readVariable
  storeFrom := storeClosed_parallel.storeFrom
  storeUpdate := storeClosed_parallel.storeUpdate
  bindElement := storeClosed_parallel.bindElement
  bindCaught := storeClosed_parallel.bindCaught
  keepDoc r t h := by
    have ht : t.startsWith "/**" = false := by simpa [plainCode] using h
    rw [keepDoc, ht]
    exact .pure ()
  applyDoc := parallel_applyDoc
  declareGlobals _ vs _ := parallel_declareGlobals vs
  use _ _ h := absurd h (by simp [plainCode])
  addVoid {_} := .bind (parallel_addReturn _ _) fun _ => .pure true
  function _ h := absurd h (by simp [plainCode])
  goesOn {_} := .pure true
  passesBy {_} _ := .pure true
  after := .bind
  andThen ha hb := .bind ha fun ok => by
    cases ok with
    | true => exact hb
    | false => exact .pure false
  guarded r hm := hm.guarded r true
  syntaxError _ _ _ _ := .bind (.report _ _ _) fun _ => .pure false
  addReturned e := .bind (Asked.type e).parallel fun _ => .bind (Asked.value e).parallel fun _ =>
    .bind (parallel_addReturn _ _) fun _ => .pure true
  detour hm ha side := .detour hm.branching ha side
  choice c _ _ _ _ ha hb := .choice c ha hb
  inLoop := .inLoop
  switchArms hasDefault _ _ _ harms := .switchArms hasDefault (forall_mem_of_forall₂ harms)
  method _ h := absurd h (by simp [plainCode, NodeTest.Admits])
  class_ _ _ _ _ _ _ _ h := absurd h (by simp [plainCode])
  namespace_ _ _ _ h := absurd h (by simp [plainCode])

/-- Code that declares nothing has the same outcome in both analyses. -/
theorem Stmt.parallel (s : Stmt) (hs : s.throughout plainCode = true) (k : NodeKind) :
    (s.analyze k).Parallel :=
  s.analyze_induction (b := true) analysisClosed_parallel hs (fun _ _ => trivial) k

theorem Function.parallel_analyzeBody (f : Function) (hf : f.throughout plainCode = true) (k : NodeKind) :
    (f.analyzeBody k).Parallel :=
  f.analyzeBody_induction analysisClosed_parallel hf (fun _ _ => trivial) k

end PhpFlow
