import PhpFlow.Program
import PhpFlow.Proofs.Balance
import PhpFlow.Proofs.Definitions

/-!
# Integrity of the analysis

Every construct of the language is analysed by a tidy step. From this the main results follow: whatever
node is analysed, the analysis ends where it started and the scopes it has made are gone; and in the
analysis of a file, which begins with a scope, no fault about scopes ever arises.
-/
namespace PhpFlow

open List

open Step (Tidy Runs Forks)
open State (Carries)

section Narrowing

variable {s : State} {p : Handle}
variable {o : Operands}

theorem runs_narrowVariable (hp : s.arena.isLive p) (side : BranchSide) (name : String)
    (refine : Option TypeUnion → Option TypeUnion) {E : Fault → State → Prop} :
    (narrowVariable p side name refine).Runs s (fun r t => s.Carries r.toList t) E := by
  obtain ⟨sc, hsc⟩ := State.exists_scope hp
  apply Runs.bind
  refine Runs.getFault (Arena.get_of_scope? hsc) ?_
  cases hv : sc.var? name with
  | none => exact Runs.pure (Carries.refl s)
  | some v =>
    dsimp only
    cases hu : refine v.flowType with
    | none => exact Runs.pure (Carries.refl s)
    | some u =>
      apply Runs.bind
      refine (Step.runs_branch hp side).mono ?_ fun _ _ h => h
      intro k t hk
      obtain ⟨arm, harm⟩ := State.exists_scope (hk.isLive_new (mem_singleton.mpr rfl))
      let arm' := arm.updateVar name fun v => { v with narrowed := some u }
      apply Runs.bind
      refine Runs.onArena (a := ()) (b := t.arena.put arm') ?_ ?_
      · rw [Arena.updateVar_eq harm]
        rfl
      · exact Runs.pure (hk.then_same (Tidy.carries_put t arm' _))

section Operations

variable (op : Operator) (ho : o.Orderly) (hs : s.ScopesLive) (hc : s.HasScope) (hp : s.arena.isLive p)
  (side : BranchSide)

include ho hs hc hp

theorem runs_narrowNull :
    (op.narrowNull o p side).Runs s (fun r t => s.Carries r.toList t) s.Aborted := by
  refine (Tidy.query ho.rightValue).before hs hc fun right t hst => ?_
  extract_lets isNullSide last
  have hlast : ∀ (name : Option String) (t : State), s.Carries [] t →
      (last name).Runs t (fun r u => t.Carries r.toList u) t.Aborted := by
    intro name t hst
    cases name with
    | none => exact Runs.pure (Carries.refl t)
    | some name => exact runs_narrowVariable (hst.isLive hp) side name _
  split
  · exact Runs.bind (Runs.pure (hlast _ t hst))
  · refine (Tidy.query ho.leftValue).before (hst.scopesLive hs) (hst.hasScope hc)
      fun left u htu => ?_
    split
    · exact Runs.bind (Runs.pure (hlast _ u (hst.trans htu)))
    · exact Runs.bind (Runs.pure (hlast none u (hst.trans htu)))

theorem runs_narrowInstance :
    (Operator.narrowInstance o p side).Runs s (fun r t => s.Carries r.toList t) s.Aborted := by
  refine (Tidy.query ho.rightClass).before hs hc fun c t hst => ?_
  split
  · apply Runs.bind
    exact Runs.get (runs_narrowVariable (hst.isLive hp) side _ _)
  · exact Runs.pure (Carries.refl t)

theorem runs_narrowOperation :
    (op.narrow o p side).Runs s (fun r t => s.Carries r.toList t) s.Aborted := by
  cases op with
  | equal | notEqual | identical | notIdentical => exact runs_narrowNull _ ho hs hc hp side
  | instanceOf => exact runs_narrowInstance ho hs hc hp side
  | _ => exact Runs.pure (Carries.refl s)

end Operations

/-- An attempt to narrow makes one new scope or none. -/
theorem runs_narrow (c : Expr) {s : State} {p : Handle} (hs : s.ScopesLive) (hp : s.arena.isLive p)
    (side : BranchSide) : (c.narrow p side).Runs s (fun r t => s.Carries r.toList t) s.Aborted := by
  cases c with
  | paren r a => exact runs_narrow a hs hp side
  | unary r op a =>
    rw [Expr.narrow]
    split
    · exact runs_narrow a hs hp side.flip
    · exact Runs.pure (Carries.refl s)
  | var r n => exact runs_narrowVariable hp side n (refineTruth side)
  | binary r a token b =>
    rw [Expr.narrow]
    split
    · exact Runs.pure (Carries.refl s)
    · next op hop =>
      split
      · apply Runs.bind
        refine (runs_narrow a hs hp side).mono ?_ fun _ _ h => h
        intro first t hst
        have hbase : t.arena.isLive (first.getD p) := by
          cases first with
          | none => exact hst.isLive hp
          | some k => exact hst.isLive_new (by simp)
        refine Runs.next (Step.runs_inScope (K := Option.toList) (hst.scopesLive hs) hbase
          fun s₁ hs₁ _ harena => runs_narrow b hs₁ (harena ▸ hbase) side) ?_ fun _ _ h => h.after hst
        intro second u htu
        cases second with
        | none => cases first <;> exact Runs.pure (hst.then_same htu)
        | some j =>
          cases first with
          | none => exact Runs.pure (hst.trans htu)
          | some k => exact Runs.bind (Runs.modify (Runs.pure (Step.carries_discard hst htu)))
      · exact Step.runs_inScope (K := Option.toList) hs hp fun s₁ hs₁ hc₁ harena =>
          runs_narrowOperation op
            (Operands.orderly_ofExprs r a b a.orderly_meaning b.orderly_meaning) hs₁ hc₁
            (harena ▸ hp) side
  | _ => exact Runs.pure (Carries.refl s)

theorem forks_condition (c : Expr) (side : BranchSide) : (c.branch side).Forks := by
  intro s hs hc
  obtain ⟨h, hh⟩ := hc.currentHandle
  apply Runs.bind
  refine Runs.getFault hh ?_
  apply Runs.bind
  refine (runs_narrow c hs (hs.current hh) side).mono ?_ fun _ _ h => h
  intro r t hst
  cases r with
  | some k => exact Runs.pure hst
  | none =>
    exact (Step.runs_branch (hst.isLive (hs.current hh)) side).mono (fun _ _ h => hst.trans h)
      fun _ _ h => h

theorem forks_current (side : BranchSide) :
    (do let parent ← Step.currentHandle; Step.branch parent side : Step Handle).Forks := by
  intro s hs hc
  obtain ⟨h, hh⟩ := hc.currentHandle
  apply Runs.bind
  exact Runs.getFault hh (Step.runs_branch (hs.current hh) side)

theorem MakesBranch.forks {m : Step Handle} (hm : MakesBranch m) : m.Forks := by
  cases hm with
  | condition c side => exact forks_condition c side
  | current side => exact forks_current side

end Narrowing

section Steps

variable {bare : Bool}
variable {body : Step Bool}

theorem stepClosed_tidy : StepClosed fun bare _ m => m.Tidy bare where
  pure := .pure
  bind := .bind
  guarded r fallback hm := hm.guarded r fallback
  get _ := .get _
  currentScope := .currentScope
  query hq := .query hq.orderly
  read name _ := .updateVar name _
  note name _ _ := .updateVar name _
  write _ _ _ := .write _ _ _ _
  waiting := .get _
  setDoc _ := .modify

theorem storeClosed_tidy : StoreClosed fun _ _ m => m.Tidy true :=
  stepClosed_tidy.stores fun _ _ _ _ => .bind (.get _) fun _ => .write _ _ _ _

/-- The scope whose variables are reported has to be live. -/
theorem runs_reportUnused {s : State} {h : Handle} (hs : s.ScopesLive) (hc : s.HasScope)
    (hh : s.arena.isLive h) : (reportUnused h).Runs s (fun _ t => s.Carries [] t) s.Aborted := by
  apply Runs.bind
  refine Runs.get ?_
  split
  · obtain ⟨sc, hsc⟩ := State.exists_scope hh
    apply Runs.bind
    exact Runs.getFault (Arena.get_of_scope? hsc)
      (Tidy.runs (stepClosed_tidy.reportUnusedAll sc.vars) hs hc)
  · exact Runs.pure (Carries.refl s)

theorem Function.tidy_infer (f : Function) (name : QualifiedName) (hbody : body.Tidy true) :
    (f.infer name body).Tidy bare := by
  refine .bind (.withTemplates _ (.inFrame _ (.withCurrent fun s root hs hc hroot => ?_)))
    fun _ => .pure _
  have hlast : ∀ t, s.Carries [] t →
      (do let _ ← body; reportUnused root : Step Unit).Runs t (fun _ u => t.Carries [] u) t.Aborted := by
    intro t hst
    refine hbody.before (K := fun _ => []) (hst.scopesLive hs) (hst.hasScope hc) fun _ u htu => ?_
    have hsu := hst.trans htu
    exact runs_reportUnused (hsu.scopesLive hs) (hsu.hasScope hc) (hsu.isLive hroot)
  refine Tidy.before (K := fun _ => []) (stepClosed_tidy.bindParameters _ _) hs hc fun _ t hst => ?_
  split
  · exact hlast t hst
  · exact Tidy.before (K := fun _ => []) (stepClosed_tidy.readDocType _ _) (hst.scopesLive hs)
      (hst.hasScope hc) fun _ u htu => hlast u (hst.trans htu)

theorem NameChange.aloof {g : State → State} (hg : NameChange g) : Step.Aloof g := by
  constructor <;> exact hg.keeps fun _ _ _ _ => rfl

theorem definesClosed_tidy (bare : Bool) : DefinesClosed fun m => m.Tidy bare where
  pure := .pure
  bind := .bind
  get _ := .get _
  change hg := .modify hg.aloof
  ensuring hm hg := hm.ensuring hg.aloof
  inClass name _ hm := hm.inClass name

theorem tidy_addReturn (type : TypeUnion) (value : Option Value) : (addReturn type value).Tidy bare := by
  refine .modify ⟨fun s => ?_, fun s => Step.sink_updateFrame s _, fun s => State.arena_updateFrame s _⟩
  cases hf : s.frames <;> simp [State.traversal, State.updateFrame, Frame.place, hf]

end Steps

section Rounds

variable {bare : Bool}

theorem analysisClosed_tidy :
    AnalysisClosed anyCode (fun _ => True) .nothing (fun bare _ _ m => m.Tidy bare)
      fun bare _ m => m.Tidy bare where
  toLeafClosed := stepClosed_tidy.leaves storeClosed_tidy
  lawful := Grade.lawful_nothing
  pure := .pure
  bind := .bind
  use _ cs _ := (definesClosed_tidy _).registerUses cs
  addVoid := .bind (tidy_addReturn _ _) fun _ => .pure true
  function f _ _ hbody := (definesClosed_tidy _).define f fun name => f.tidy_infer name hbody
  goesOn := .pure true
  passesBy _ := .pure true
  after := .bind
  andThen := .andThen
  guarded r hm := hm.guarded r true
  syntaxError _ _ _ _ := .bind (.report (by decide) _ _) fun _ => .pure false
  addReturned e := .bind (stepClosed_tidy.type e) fun _ => .bind (stepClosed_tidy.value e) fun _ =>
    .bind (tidy_addReturn _ _) fun _ => .pure true
  detour hm ha side := .detour hm.forks ha side
  choice c _ _ _ _ ht hf := .choice (forks_condition c _) (forks_condition c _) ht hf
  inLoop := .inLoop
  switchArms hasDefault _ _ _ harms := .switchArms (forall_mem_of_forall₂ harms) hasDefault
  method m _ hbody := (definesClosed_tidy true).defineMethod m fun name => m.function.tidy_infer name hbody
  class_ r n p is ms isInterface k _ hms := (definesClosed_tidy _).class_ .bind r n p is ms isInterface k
    (.pure true) (fun hm r => .guarded (.thenContinue hm) r true) hms
  namespace_ _ n _ _ hbody := (definesClosed_tidy _).inNamespace .bind
    (definesClosed_tidy _).ensuring n (fun _ => .pure true) hbody

theorem Stmt.tidy_analyze (s : Stmt) (where_ : NodeKind) : (s.analyze where_).Tidy bare :=
  s.analyze_induction analysisClosed_tidy s.throughout_anyCode (fun _ _ => trivial) where_

theorem tidy_silently {α : Type} {q : Query α} (hq : q.Orderly) : (Step.silently q).Tidy bare := by
  intro s _
  unfold Runs Step.silently
  cases hr : (q s).1 with
  | error e => exact .inl ⟨hq.faults s e hr, State.Restored.refl s⟩
  | ok a => exact Carries.refl s

theorem tidy_declareConstant (name : QualifiedName) (e : Expr) : (declareConstant name e).Tidy bare := by
  refine .bind (tidy_silently e.orderly_meaning.value) fun v => ?_
  cases v with
  | some v => exact .bind (.pure _) fun _ => .modify
  | none => exact .bind (tidy_silently e.orderly_meaning.type) fun _ => .modify

theorem Stmt.tidy_collect (program : Stmt) : program.collect.Tidy bare :=
  (definesClosed_tidy _).collect tidy_declareConstant program

end Rounds

/-- The handles of live scopes depend on nothing but which scopes are live. -/
theorem Arena.liveHandles_congr {a b : Arena} (h : ∀ k, b.isLive k = a.isLive k) :
    b.liveHandles = a.liveHandles := by
  -- Beyond the end of an arena nothing is live, so its handles can be looked for in a longer range.
  have hlonger : ∀ (c : Arena) (n : Nat), c.liveHandles = (List.range (c.scopes.size + n)).filterMap
      fun (i : Nat) => if c.isLive i then some (i : Handle) else none := by
    intro c n
    induction n with
    | zero => rfl
    | succ n ih =>
      have hdead : c.isLive ((c.scopes.size + n : Nat) : Handle) = false := by
        rw [isLive, scope?_natCast]
        simp
      rw [ih, ← Nat.add_assoc, range_succ, filterMap_append, filterMap_cons_none, filterMap_nil, append_nil]
      rw [hdead, if_neg Bool.false_ne_true]
  rw [hlonger b a.scopes.size, hlonger a b.scopes.size, Nat.add_comm]
  simp only [h]

theorem State.scopesLive_new (symbols : SymbolTable) (config : Config) (file : Option String) (sink : Sink) :
    (State.new symbols config file sink).ScopesLive := by
  intro f hf h hh
  obtain rfl : f = { Frame.new none with scopes := [0] } := by simpa [State.new, Arena.newRoot, Arena.add,
    Arena.empty] using hf
  obtain rfl : h = 0 := by simpa using hh
  rfl

theorem State.hasScope_new (symbols : SymbolTable) (config : Config) (file : Option String) (sink : Sink) :
    (State.new symbols config file sink).HasScope := by
  simp [State.HasScope, State.currentFrame, State.new]

/-- Whatever node is analysed in a state whose entered scopes are live: if the analysis of the node gives an
answer, the functions and scopes entered, the loops around, the current class and the template names are
what they were, and so are the live scopes. Otherwise a number was too large or too long. -/
theorem analyze_restores_traversal (node : Stmt) (where_ : NodeKind) (s : State) (hs : s.ScopesLive) :
    (∀ ok t, node.analyze where_ s = (.ok ok, t) →
      t.traversal = s.traversal ∧ t.arena.liveHandles = s.arena.liveHandles) ∧
    ∀ e t, node.analyze where_ s = (.error e, t) → e.isNumeric ∧ t.traversal = s.traversal := by
  have hruns : (node.analyze where_).Runs s _ (s.Failed false) := node.tidy_analyze where_ s hs
  unfold Runs at hruns
  constructor
  · intro ok t ht
    rw [ht] at hruns
    refine ⟨hruns.traversal, Arena.liveHandles_congr fun h => ?_⟩
    have hlive := hruns.live h
    rw [Bool.eq_iff_iff, hlive]
    simp
  · intro e t ht
    rw [ht] at hruns
    rcases hruns with ha | ⟨hb, -⟩
    · exact ⟨ha.1, ha.2.traversal⟩
    · cases hb

/-- The code `while ($go) { if ($a && $b) { function f() { return 1; } } else ... }`, where what comes after
`else` is not code. -/
def interruptedLoop : Stmt :=
  .while_ .zero (.var .zero "go") (.block .zero
    [.ifElse .zero (.binary .zero (.var .zero "a") "&&" (.var .zero "b"))
      (.block .zero [.function ⟨.zero, "f", [], some (.block .zero
        [.return_ .zero (some (.integer .zero 1))]), none, none⟩])
      [] (some ⟨.zero, .expression .zero (.error .zero "")⟩)])

/-- The analysis stops inside the loop, and all that is left is the scope that was there before. -/
theorem interruptedLoop_restores_traversal :
    (State.new {} {} none .discarding).ScopesLive ∧
    ∃ t, interruptedLoop.analyze .program (State.new {} {} none .discarding) = (.ok false, t) ∧
      t.traversal = (State.new {} {} none .discarding).traversal ∧ t.arena.liveHandles = [0] := by
  have hs := State.scopesLive_new {} {} none .discarding
  have hstops : (interruptedLoop.analyze .program (State.new {} {} none .discarding)).1.toOption =
      some false := by decide +kernel
  rcases ht : interruptedLoop.analyze .program (State.new {} {} none .discarding) with ⟨e | ok, t⟩
  · rw [ht] at hstops
    cases hstops
  · rw [ht] at hstops
    obtain rfl : ok = false := Option.some.inj hstops
    exact ⟨hs, t, rfl, (analyze_restores_traversal interruptedLoop .program _ hs).1 false t ht⟩

def Sink.emitted : Sink → List Issue
  | .collecting c => c.emitted
  | .discarding => []

def Sink.collects : Sink → Prop
  | .collecting _ => True
  | .discarding => False

theorem Sink.mem_emitted_foldl_iff (found : List Issue) (k : Sink) (i : Issue) :
    i ∈ (found.foldl Sink.emit k).emitted ↔ i ∈ k.emitted ∨ k.collects ∧ i ∈ found := by
  induction found generalizing k with
  | nil => simp
  | cons j js ih =>
    rw [foldl_cons, ih]
    cases k with
    | discarding => simp [Sink.emit, Sink.collects]
    | collecting c =>
      have hj : i ∈ (c.emit j).emitted ↔ i ∈ c.emitted ∨ i = j := by
        unfold Collector.emit
        split
        · next h =>
          have hmem : j ∈ c.emitted := by simpa using h
          exact ⟨.inl, fun hi => hi.elim id fun he => he ▸ hmem⟩
        · simp
      simp only [Sink.emit, Sink.emitted, Sink.collects, hj, mem_cons, true_and, or_assoc]

theorem Sink.mem_emitted_foldl {found : List Issue} {k : Sink} {i : Issue}
    (h : i ∈ (found.foldl Sink.emit k).emitted) : i ∈ k.emitted ∨ i ∈ found :=
  ((Sink.mem_emitted_foldl_iff found k i).mp h).imp_right And.right

/-- No fault about scopes has a message like that about an operator. -/
theorem Fault.message_ne {e : Fault} (he : e.isInternal) (text : String) :
    "unrecognized binary operator " ++ text ≠ e.message := by
  intro h
  have hhead : e.message.toList.head? = some 'u' := by
    rw [← h, String.toList_append]
    rfl
  cases e with
  | deadScope k =>
    change ("scope " ++ toString k ++ " is not live").toList.head? = some 'u' at hhead
    rw [String.toList_append, String.toList_append] at hhead
    cases hhead
  | emptyScopeStack => cases hhead
  | corruptScopeStack p k =>
    change ("scope stack corrupted: " ++ toString p ++ " != " ++ toString k).toList.head? = some 'u' at hhead
    rw [String.toList_append, String.toList_append, String.toList_append] at hhead
    cases hhead
  | _ => cases he

def fileRounds (program : Stmt) (collect : Bool) : Step Bool := do
  if collect then program.collect
  program.analyze .program

theorem tidy_fileRounds {bare : Bool} (program : Stmt) (collect : Bool) :
    (fileRounds program collect).Tidy bare := by
  cases collect with
  | true => exact .bind program.tidy_collect fun _ => program.tidy_analyze .program
  | false => exact program.tidy_analyze .program

theorem analyzeFile_eq (program : Stmt) (symbols : SymbolTable) (config : Config) (sink : Sink)
    (file : Option String) (collect : Bool) :
    analyzeFile program symbols config sink file collect =
      match fileRounds program collect (State.new symbols config file sink) with
      | (.ok completed, s) => .ok ⟨completed, s⟩
      | (.error e, _) => .error e := rfl

/-- In the analysis of a file no fault about scopes arises: none ends it, and among the issues that come to
the sink each internal error is about an operator that does not exist, which is not what a fault that was
caught says. Nor is such a fault caught and dropped where an expression is asked about. -/
theorem analyzeFile_raises_no_internal_fault (program : Stmt) (symbols : SymbolTable) (config : Config)
    (sink : Sink) (file : Option String) (collect : Bool) :
    (∀ e, analyzeFile program symbols config sink file collect = .error e → e.isNumeric) ∧
    (∀ i ∈ (fileRounds program collect (State.new symbols config file sink)).2.sink.emitted,
      i ∉ sink.emitted → i.kind = .internalError →
        (∃ token, Operator.ofToken? token = none ∧
          i.message = "unrecognized binary operator " ++ Text.quote token) ∧
        ∀ e : Fault, e.isInternal → i.message ≠ e.message) ∧
    ∀ (e : Expr) (s : State), s.ScopesLive → s.HasScope →
      ∀ i ∈ (e.type s).2 ++ (e.value s).2, i.IsOrdinary := by
  have hruns := (tidy_fileRounds program collect).runs
    (State.scopesLive_new symbols config file sink) (State.hasScope_new symbols config file sink)
  have hrestored : (State.new symbols config file sink).Restored
      (fileRounds program collect (State.new symbols config file sink)).2 := by
    unfold Runs at hruns
    split at hruns
    · next ht => rw [ht]; exact hruns.toRestored
    · next ht => rw [ht]; exact hruns.2
  refine ⟨?_, ?_, ?_⟩
  · intro e he
    unfold Runs at hruns
    rw [analyzeFile_eq] at he
    split at he
    · cases he
    · next ht =>
      cases he
      rw [ht] at hruns
      exact hruns.1
  · intro i hi hnew hkind
    obtain ⟨found, hsink, hordinary⟩ := hrestored.reported (State.hasScope_new symbols config file sink)
    rw [hsink] at hi
    have hfound := (Sink.mem_emitted_foldl hi).resolve_left hnew
    obtain ⟨token, htoken, hmessage⟩ := hordinary i hfound hkind
    exact ⟨⟨token, htoken, hmessage⟩, fun e he => hmessage ▸ Fault.message_ne he _⟩
  · intro e s hs hc i hi
    obtain ⟨sc, hsc⟩ := hs.currentScope hc
    rcases mem_append.mp hi with hi | hi
    · exact e.orderly_meaning.type.issues s sc hsc i hi
    · exact e.orderly_meaning.value.issues s sc hsc i hi

end PhpFlow
