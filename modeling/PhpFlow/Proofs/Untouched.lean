import PhpFlow.Proofs.Counting
import PhpFlow.Proofs.Coverage
import PhpFlow.Proofs.Sparing

/-!
# Variables that code leaves alone

Code that nowhere writes to a variable leaves its type and its value as they were, whatever branches, loops and
functions there are, and also if a syntax error has ended the analysis early. Doc comments are the one other
way to change a type, so there must be none in the code and none waiting for it.
-/
namespace PhpFlow

open List

open Step (Acts Passes Spares)

section Syntax

def avoids (kept names : List String) : Bool := names.all fun n => !kept.contains n

def Expr.spares (kept : List String) (e : Expr) : Bool := avoids kept (e.writings .value)

def sparesGrade : Grade (List String → Bool) where
  one _ := true
  mul x y kept := x kept && y kept
  sum xs kept := xs.all (· kept)
  writing names kept := avoids kept names
  comment text _ := !text.startsWith "/**"
  global names kept := avoids kept names
  nested x _ := x []

/-- No place in the code writes to any of the variables, and no doc comment stands in it. Functions have
variables of their own, so their code may write to any. -/
def Stmt.spares (kept : List String) (s : Stmt) : Bool := sparesGrade.stmt s kept

section Names

variable {kept xs ys : List String}

@[simp] theorem avoids_append : avoids kept (xs ++ ys) = (avoids kept xs && avoids kept ys) :=
  all_append

theorem notMem_of_avoids (h : avoids kept xs = true) : ∀ n ∈ xs, n ∉ kept := by
  simpa [avoids] using h

end Names

end Syntax

variable {kept : List String}

section Small

/-- Being read does not show in how a variable stands. -/
theorem lookClosed_spares : LookClosed fun _ _ m => m.Spares kept where
  pure := .pure
  bind := .bind
  guarded _ _ hm := Acts.guarded hm
  get hf := Passes.get hf.rest
  currentScope := Passes.currentScope
  query hq := Passes.query hq.orderly.faults
  read _ _ := .updateVar (fun _ => rfl) fun _ _ => rfl
  mark _ := .updateVar (fun _ => rfl) fun _ _ => rfl

theorem storeClosed_spares : StoreClosed fun xs _ m => avoids kept xs = true → m.Spares kept where
  pure a _ := .pure a
  bind hm hf h := by
    rw [avoids_append, Bool.and_eq_true] at h
    exact .bind (hm h.1) fun a => hf a h.2
  query hq _ := Passes.query hq.orderly.faults
  keepValue _ _ := Passes.get fun _ => rfl
  write name u v r h :=
    .bind (Passes.get fun _ => rfl) fun _ => .write (notMem_of_avoids h name (by simp)) _ _ _
  writeElement r base index u h := by
    unfold writeElement
    cases hroot : base.root? with
    | none => exact Passes.report _ _ _
    | some root =>
      have hname : root.name ∉ kept := notMem_of_avoids h _ (by simp [hroot])
      exact .bind Passes.currentScope fun _ => .write hname _ _ _
  caughtType _ _ := Passes.get fun _ => rfl

end Small

section Functions

variable {body : Step Bool}

theorem spares_bindParameter (doc : Option DocComment) (p : Parameter) :
    (bindParameter doc p).Spares [] := by
  refine .bind (lookClosed_spares.readParameterType (b := true) p) fun _ =>
    .bind (lookClosed_spares.readParameterDoc (b := true) doc p.name) fun _ => ?_
  have hwrite : ∀ {f : Variable → Variable} (type : TypeUnion), (∀ v, (f v).name = v.name) → (do
      Step.updateVar p.name f
      Step.write p.name type none (some p.range) : Step Unit).Spares [] := fun _ hf =>
    .bind (.updateVar hf (by simp)) fun _ => .write (by simp) _ _ _
  split
  · exact .bind (.pure none) fun _ => hwrite _ fun _ => rfl
  · next e _ => exact .bind (Passes.query e.numericFaults_value) fun _ => hwrite _ fun _ => rfl

theorem spares_bindParameters (doc : Option DocComment) (ps : List Parameter) :
    (bindParameters doc ps).Spares [] := by
  induction ps with
  | nil => exact .pure ()
  | cons p ps ih => exact .bind (spares_bindParameter doc p) fun _ => ih

theorem Function.spares_run (f : Function) (hbody : body.Spares []) :
    (f.run body >>= reportUnused).Spares [] := by
  refine (f.acts_run (spares_bindParameters _ _) (lookClosed_spares.readDocType (b := true))
    (fun h h' hdoc => (h hdoc).trans (h' (h hdoc).doc)) hbody).mono ?_
  rintro l _ l' ⟨m, ok, n, h₁, h₂, hsame⟩ hdoc
  have hdone := h₂ (h₁ hdoc).doc
  exact ⟨by rw [hsame.rest]; exact hdone.doc, by simp⟩

theorem spares_withTemplates {α : Type} (names : List String) {m : Step α} (hm : m.Spares kept) :
    (withTemplates names m).Spares kept :=
  .bind (Passes.get fun _ => rfl) fun _ => .bind (.modify {} fun _ => rfl) fun _ => .ensuring hm {} fun _ => rfl

theorem spares_inClass {α : Type} (name : QualifiedName) {m : Step α} (hm : m.Spares kept) :
    (inClass name m).Spares kept :=
  .bind (Passes.get fun _ => rfl) fun _ => .bind (.modify {} fun _ => rfl) fun _ => .ensuring hm {} fun _ => rfl

theorem Function.spares_infer (f : Function) (name : QualifiedName) (hbody : body.Spares []) :
    (f.infer name body).Spares kept := by
  rw [f.infer_eq]
  exact .bind (spares_withTemplates _ ((f.spares_run hbody).inFrame _)) fun _ => .pure _

theorem definesClosed_spares (kept : List String) : DefinesClosed fun m => m.Spares kept where
  pure := .pure
  bind := .bind
  get hf := Passes.get hf.rest
  change hg := .modify hg.restOnly (hg.keeps fun _ _ _ _ => rfl)
  ensuring hm hg := .ensuring hm hg.restOnly (hg.keeps fun _ _ _ _ => rfl)
  inClass := spares_inClass

end Functions

section Grades

theorem lawful_spares : sparesGrade.Lawful := by
  constructor <;> simp [sparesGrade, avoids]

theorem mul_spares {x y : List String → Bool} :
    sparesGrade.mul x y kept = true ↔ x kept = true ∧ y kept = true :=
  Bool.and_eq_true_iff

theorem methods_spare (ms : List Method) :
    sparesGrade.methods ms kept = true ↔ ∀ m ∈ ms, sparesGrade.function m.function kept = true := by
  induction ms with
  | nil => simp [Grade.methods, sparesGrade]
  | cons m ms ih =>
    obtain ⟨f, isStatic⟩ := m
    rw [forall_mem_cons, Grade.methods, mul_spares, ih]

end Grades

section Statements

theorem spares_keepDoc {text : String} (h : (!text.startsWith "/**") = true) (range : Range) :
    (keepDoc text range).Spares kept := by
  rw [Bool.not_eq_true'] at h
  rw [keepDoc, h]
  exact .pure ()

theorem spares_applyDoc (assigned : Option String) : (applyDoc assigned).Spares kept := by
  rw [applyDoc_eq]
  refine (Acts.bind (Acts.get (f := State.waiting) fun _ => rfl) fun tags =>
    Acts.bind (Acts.modify {}) (Ψ := fun _ l _ l' => tags = [] → l' = l) fun _ => ?_).mono ?_
  · cases tags with
    | nil => exact (Acts.pure ()).mono fun _ _ _ h _ => h.2
    | cons => exact Acts.mono (noteClosed_adds.applyVars assigned _) fun _ _ _ _ hnil => by cases hnil
  · rintro l _ l' ⟨_, _, ⟨rfl, rfl⟩, _, _, rfl, hl'⟩ h
    rw [hl' (by simp [State.waiting, h])]
    exact ⟨rfl, fun _ _ _ => rfl⟩

theorem spares_addReturn (type : TypeUnion) (value : Option Value) :
    (addReturn type value).Spares kept := by
  refine .modify (restOnly_addReturn type value) fun s => ?_
  cases hf : s.frames <;> simp [State.updateFrame, hf]

theorem spares_declareGlobals (vs : List VariableName) (h : avoids kept (vs.map (·.name)) = true) :
    (declareGlobals vs).Spares kept := by
  induction vs with
  | nil => exact .bind Passes.currentScope fun _ => .pure ()
  | cons v vs ih =>
    have hname : v.name ∉ kept := notMem_of_avoids h _ (by simp)
    have hrest : avoids kept (vs.map (·.name)) = true := by
      rw [map_cons, ← singleton_append, avoids_append, Bool.and_eq_true] at h
      exact h.2
    refine .bind (.updateVar (fun _ => rfl) fun hn => absurd hn hname) fun _ =>
      .bind Passes.currentScope fun sc => ?_
    split
    · exact .bind (.write hname _ _ _) fun _ => ih hrest
    · exact ih hrest

theorem spares_arms {xs : List (List String → Bool)} {arms : List (Step Bool)}
    (h : List.Forall₂ (fun x m => ∀ kept, x kept = true → m.Spares kept) xs arms)
    (hxs : xs.all (· kept) = true) : ∀ m ∈ arms, m.Spares kept := by
  induction h with
  | nil => simp
  | cons hm _ ih =>
    rw [all_cons, Bool.and_eq_true] at hxs
    exact forall_mem_cons.mpr ⟨hm kept hxs.1, ih hxs.2⟩

/-- The analysis of a statement leaves alone what the statement does. -/
theorem analysisClosed_spares : AnalysisClosed anyCode (fun _ => True) sparesGrade
    (fun _ x _ m => ∀ kept, x kept = true → m.Spares kept)
    fun _ x m => ∀ kept, x kept = true → m.Spares kept where
  lawful := lawful_spares
  pure a _ _ := .pure a
  bind hm hf kept h := .bind (hm kept (mul_spares.mp h).1) fun a => hf a kept (mul_spares.mp h).2
  type e _ _ := Passes.query e.numericFaults_type
  value e _ _ := Passes.query e.numericFaults_value
  missing _ _ _ _ := Passes.report _ _ _
  readVariable r n _ _ := lookClosed_spares.readVariable (b := true) r n
  storeFrom target source keepsValue _ := storeClosed_spares.storeFrom target source keepsValue
  storeUpdate r op argument before _ := storeClosed_spares.storeUpdate r op argument before
  bindElement k v types _ := storeClosed_spares.bindElement k v types
  bindCaught types v _ := storeClosed_spares.bindCaught types v
  keepDoc r _ _ _ h := spares_keepDoc h r
  applyDoc assigned _ _ := spares_applyDoc assigned
  declareGlobals _ vs _ _ h := spares_declareGlobals vs h
  use _ cs _ _ _ := (definesClosed_spares _).registerUses cs
  function f _ _ hbody _ h := (definesClosed_spares _).define f fun name => f.spares_infer name (hbody [] h)
  goesOn _ _ := .pure true
  passesBy _ _ _ := .pure true
  after hm hf kept h := .bind (hm kept (mul_spares.mp h).1) fun a => hf a kept (mul_spares.mp h).2
  andThen hm hn kept h := .andThen (hm kept (mul_spares.mp h).1) (hn kept (mul_spares.mp h).2)
  guarded _ hm kept h := Acts.guarded (hm kept h)
  syntaxError _ _ _ _ _ _ := .bind (Passes.report _ _ _) fun _ => .pure false
  addVoid _ _ := .thenContinue (spares_addReturn _ _)
  addReturned e _ _ := .bind (Passes.query e.numericFaults_type) fun _ =>
    .bind (Passes.query e.numericFaults_value) fun _ => .bind (spares_addReturn _ _) fun _ => .pure true
  detour hm ha side kept h := .detour hm (ha kept h) side
  choice c _ _ _ _ ha hb kept h := .choice c (ha kept (mul_spares.mp h).1) (hb kept (mul_spares.mp h).2)
  inLoop hm kept h := .inLoop (hm kept h)
  switchArms _ _ _ hne harms _ h := .switchArms (spares_arms harms h) hne
  method m _ hbody _ h :=
    (definesClosed_spares _).defineMethod m fun name => m.function.spares_infer name (hbody [] h)
  class_ r n p is ms isInterface k _ hms kept h := (definesClosed_spares kept).class_
    (P := fun m => m.Spares kept) .bind r n p is ms isInterface k (.pure true)
      (fun hm _ => Acts.guarded (Passes.bind hm fun _ => .pure true)) fun m hm => hms m hm kept ((methods_spare ms).mp h m hm)
  namespace_ _ n _ _ hbody kept h := (definesClosed_spares kept).inNamespace .bind
    (definesClosed_spares kept).ensuring n (fun _ => .pure true) fun m hm => hbody m hm kept h

theorem Expr.spares_read (e : Expr) (role : Role) : (e.read role).Spares kept :=
  lookClosed_spares.reads (b := true) e role

theorem Expr.spares_analyze (e : Expr) (role : Role) (h : avoids kept (e.writings role) = true)
    (k : NodeKind) : (e.analyze role k).Spares kept :=
  e.analyze_induction analysisClosed_spares (b := true) e.throughout_anyCode role k kept h

theorem Stmt.spares_analyze (s : Stmt) (h : s.spares kept = true) (k : NodeKind) :
    (s.analyze k).Spares kept :=
  s.analyze_induction analysisClosed_spares (b := true) s.throughout_anyCode (fun _ _ => trivial) k kept h

end Statements

theorem State.Occurs.coherent_trail {s : State} (hs : s.Occurs) {h : Handle} {sc : Scope}
    (hsc : s.arena.scope? h = some sc) (x : String) : (sc.trail x).Coherent := by
  cases hv : sc.var? x with
  | none => exact ⟨by simp [Scope.trail, hv, Trail.empty], by simp [Scope.trail, hv, Trail.empty, Write.ids]⟩
  | some v =>
    have hcoherent := hs.coherent hsc (Scope.mem_of_var? hv)
    exact ⟨by simpa [Scope.trail, hv, Variable.trail] using hcoherent.live,
      by simpa [Scope.trail, hv, Variable.trail] using hcoherent.nodupLive⟩

/-- Code that nowhere writes to a variable leaves its type, its value and what is narrowed of it as they
were, if no doc comment stands in the code or waits for it. That is so at every moment of an analysis, and
whether the code is followed to its end or a syntax error ends it early; only a number that is too large
can end it without a result. -/
theorem unwritten_variable_keeps_type_and_value (node : Stmt) (where_ : NodeKind) (x : String)
    (hx : node.spares [x] = true) (s : State) (hs : s.Occurs) (hdoc : s.pendingDoc = none) (sc : Scope)
    (hsc : s.currentScope = .ok sc) :
    (∃ completed t sc', node.analyze where_ s = (.ok completed, t) ∧ t.currentScope = .ok sc' ∧
      (sc'.var? x).bind Variable.flowType = (sc.var? x).bind Variable.flowType ∧
      (sc'.var? x).bind Variable.flowValue = (sc.var? x).bind Variable.flowValue ∧
      (sc'.var? x).bind Variable.narrowed = (sc.var? x).bind Variable.narrowed) ∨
    ∃ e t, node.analyze where_ s = (.error e, t) ∧ e.isNumeric := by
  obtain ⟨h, w⟩ := hs.working hsc
  have hcoherent := hs.coherent_trail w.scope x
  rcases (node.spares_analyze hx where_ s h sc w).cases with
    ⟨completed, t, ht, hu, sc', hsc', hspares⟩ | ⟨e, t, ht, he, -⟩
  · have hstanding := (hspares hdoc).standing x (by simp) hcoherent
    have hcurrent := State.currentScope_eq (Step.working_of_undisturbed w hu hsc')
    refine .inl ⟨completed, t, sc', ht, hcurrent, ?_, ?_, ?_⟩
    · rw [← Scope.flowType_standing, ← Scope.flowType_standing]
      exact congrArg Standing.flowType hstanding
    · rw [← Scope.flowValue_standing, ← Scope.flowValue_standing]
      exact congrArg Standing.flowValue hstanding
    · rw [← Scope.narrowed_standing, ← Scope.narrowed_standing]
      exact congrArg Standing.narrowed hstanding
  · exact .inr ⟨e, t, ht, he⟩

def fiveAssigned : Stmt := .expression .zero (.assign .zero (.var .zero "x") (.integer .zero 5) false)

/-- `while ($x) { if ($x === null) { $y = $x; } }` -/
def testingLoop : Stmt :=
  .while_ .zero (.var .zero "x") (.block .zero
    [.ifElse .zero (.binary .zero (.var .zero "x") "===" (.null .zero))
      (.expression .zero (.assign .zero (.var .zero "y") (.var .zero "x") false)) [] none])

/-- After a loop that tests a variable and narrows it on the way, the variable still is five. -/
theorem testingLoop_keeps_five :
    testingLoop.spares ["x"] = true ∧
    (fiveAssigned.analyze .program (.new {} {} none .discarding)).2.Occurs ∧
    ∃ sc, (fiveAssigned.analyze .program (.new {} {} none .discarding)).2.currentScope = .ok sc ∧
      ((sc.var? "x").bind Variable.flowValue).map Value.toInt? = some (.ok (some 5)) ∧
      ((∃ completed t sc', testingLoop.analyze .program
          (fiveAssigned.analyze .program (.new {} {} none .discarding)).2 = (.ok completed, t) ∧
        t.currentScope = .ok sc' ∧
        (sc'.var? "x").bind Variable.flowType = (sc.var? "x").bind Variable.flowType ∧
        (sc'.var? "x").bind Variable.flowValue = (sc.var? "x").bind Variable.flowValue ∧
        (sc'.var? "x").bind Variable.narrowed = (sc.var? "x").bind Variable.narrowed) ∨
      ∃ e t, testingLoop.analyze .program
        (fiveAssigned.analyze .program (.new {} {} none .discarding)).2 = (.error e, t) ∧ e.isNumeric) := by
  have hoccurs : (fiveAssigned.analyze .program (.new {} {} none .discarding)).2.Occurs :=
    fiveAssigned.remains_analyze .program _ ⟨[], .start _ _ _⟩
  refine ⟨by decide +kernel, hoccurs, _, rfl, by decide +kernel, ?_⟩
  exact unwritten_variable_keeps_type_and_value testingLoop .program "x" (by decide +kernel) _ hoccurs
    rfl _ rfl

end PhpFlow
