import PhpFlow.Proofs.Integrity

/-!
# Both rounds name functions alike

Both rounds name a function after the namespace where they find it. As long as namespaces are not nested in
other code the two names are the same, so the second round meets no function that is not in the table, and
the functions in the table stay the same.
-/
namespace PhpFlow

open List

def nameIn (ns : Option QualifiedName) (name : String) : QualifiedName :=
  if name.startsWith "\\" then .ofText name else (ns.getD .empty).push name

/-- The names of the functions that a direct statement of a program defines, in the namespace `ns` unless the
statement is a namespace itself. -/
def Stmt.namesIn (ns : Option QualifiedName) : Stmt → List QualifiedName
  | .namespace_ _ n b => (bodyDefinitions b).map fun f => nameIn (namespaceOf n) f.name
  | s => s.definitions.map fun f => nameIn ns f.name

/-- A namespace without a body lasts until the next one. -/
def Stmt.namespaceAfter (ns : Option QualifiedName) : Stmt → Option QualifiedName
  | .namespace_ _ n none => namespaceOf n
  | _ => ns

def definedNames : Option QualifiedName → List Stmt → List QualifiedName
  | _, [] => []
  | ns, s :: ss => s.namesIn ns ++ definedNames (s.namespaceAfter ns) ss

def namespaceFree : NodeTest where
  stmt
    | .namespace_ _ _ _ => false
    | _ => true

def Stmt.nestsNoNamespace : Stmt → Bool
  | .namespace_ _ _ b => bodyThroughout namespaceFree b
  | s => s.throughout namespaceFree

def SymbolTable.functionNames (t : SymbolTable) : List QualifiedName := t.functions.map (·.name)

def SymbolTable.HasFunction (t : SymbolTable) (q : QualifiedName) : Prop := (t.function? q).isSome

namespace SymbolTable

variable {t u : SymbolTable} {q : QualifiedName}

theorem hasFunction_iff : t.HasFunction q ↔ ∃ n ∈ t.functionNames, n.key = q.key := by
  simp [HasFunction, function?, functionNames, find?_isSome]

theorem HasFunction.mono (h : t.HasFunction q) (hsub : t.functionNames ⊆ u.functionNames) :
    u.HasFunction q := by
  obtain ⟨n, hn, hkey⟩ := hasFunction_iff.mp h
  exact hasFunction_iff.mpr ⟨n, hsub hn, hkey⟩

theorem functionNames_addFunction (t : SymbolTable) (f : FunctionSymbol) :
    t.functionNames ⊆ (t.addFunction f).functionNames := by
  unfold addFunction
  split
  · exact fun _ h => h
  · simp [functionNames]

/-- A function that has been added is there, perhaps by an earlier declaration. -/
theorem hasFunction_addFunction (t : SymbolTable) (f : FunctionSymbol) :
    (t.addFunction f).HasFunction f.name := by
  unfold addFunction
  split
  · next h => exact h
  · exact hasFunction_iff.mpr ⟨f.name, by simp [functionNames], rfl⟩

theorem addFunction_of_hasFunction {f : FunctionSymbol} (h : t.HasFunction f.name) :
    t.addFunction f = t :=
  if_pos h

theorem functionNames_updateFunction (t : SymbolTable) (q : QualifiedName) (u : TypeUnion) :
    (t.updateFunction q fun g => { g with inferred := some u }).functionNames = t.functionNames := by
  rw [functionNames, updateFunction, functionNames, map_map]
  refine map_congr_left fun g _ => ?_
  dsimp only [Function.comp]
  split <;> rfl

theorem function?_updateFunction (t : SymbolTable) (q p : QualifiedName)
    {f : FunctionSymbol → FunctionSymbol} (hf : ∀ g, (f g).name = g.name) :
    (t.updateFunction q f).function? p =
      (t.function? p).map fun g => if g.name.key = q.key then f g else g := by
  have hname (g : FunctionSymbol) : (if g.name.key = q.key then f g else g).name = g.name := by
    split
    · exact hf g
    · rfl
  simp only [function?, updateFunction, find?_map, Function.comp_def, hname]

end SymbolTable

section FirstRound

/-- Where the step succeeds, the namespace is the same, no function is lost, and those of `fs` are there. -/
def Step.Enters {α : Type} (m : Step α) (fs : List Function) : Prop :=
  ∀ s a t, m s = (.ok a, t) → t.namespaceName = s.namespaceName ∧
    s.symbols.functionNames ⊆ t.symbols.functionNames ∧
    ∀ f ∈ fs, t.symbols.HasFunction (nameIn s.namespaceName f.name)

namespace Step.Enters

variable {α β : Type} {m : Step α} {fs gs : List Function}

/-- A step that changes neither the namespace nor the functions. -/
theorem still (hns : ∀ s, (m s).2.namespaceName = s.namespaceName)
    (hfunctions : ∀ s, (m s).2.symbols.functions = s.symbols.functions) : m.Enters [] := by
  intro s a t h
  obtain rfl : (m s).2 = t := by rw [h]
  exact ⟨hns s, by simp [SymbolTable.functionNames, hfunctions s], by simp⟩

theorem bind {f : α → Step β} (hm : m.Enters fs) (hf : ∀ a, (f a).Enters gs) :
    (m >>= f).Enters (fs ++ gs) := by
  intro s b u h
  obtain ⟨a, t, hms, hmt⟩ := exists_of_bind_eq_ok h
  obtain ⟨hns, hsub, hfs⟩ := hm s a t hms
  obtain ⟨hns', hsub', hgs⟩ := hf a t b u hmt
  refine ⟨hns'.trans hns, fun n hn => hsub' (hsub hn), fun g hg => ?_⟩
  rcases mem_append.mp hg with hg | hg
  · exact (hfs g hg).mono hsub'
  · exact hns ▸ hgs g hg

theorem pure (a : α) : (Pure.pure a : Step α).Enters [] := still (fun _ => rfl) fun _ => rfl

theorem get (f : State → α) : (Step.get f).Enters [] := still (fun _ => rfl) fun _ => rfl

theorem modify {g : State → State} (hns : ∀ s, (g s).namespaceName = s.namespaceName)
    (hfunctions : ∀ s, (g s).symbols.functions = s.symbols.functions) : (Step.modify g).Enters [] :=
  still hns hfunctions

theorem before {f : α → Step β} (hm : m.Enters []) (hf : ∀ a, (f a).Enters fs) : (m >>= f).Enters fs :=
  hm.bind hf

theorem ensuring {g : State → State} (hm : m.Enters fs) (hns : ∀ s, (g s).namespaceName = s.namespaceName)
    (hfunctions : ∀ s, (g s).symbols.functions = s.symbols.functions) :
    (Step.ensuring m (Step.modify g)).Enters fs := by
  intro s a _ h
  obtain ⟨u, hms, ⟨⟩⟩ := exists_of_ensuring_eq_ok h
  obtain ⟨hns', hsub, hfs⟩ := hm s a u hms
  have hnames : (g u).symbols.functionNames = u.symbols.functionNames := by
    simp [SymbolTable.functionNames, hfunctions u]
  rw [hns u, hnames]
  exact ⟨hns', hsub, fun f hf => (hfs f hf).mono (by rw [hnames]; exact fun _ h => h)⟩

end Step.Enters

theorem enters_declareConstant (name : QualifiedName) (e : Expr) : (declareConstant name e).Enters [] := by
  have hadd : ∀ c : ConstantSymbol, (Step.modify fun s =>
      { s with symbols := s.symbols.addConstant c }).Enters [] := by
    refine fun c => .modify (fun _ => rfl) fun s => ?_
    unfold SymbolTable.addConstant
    split <;> rfl
  refine .before (.still (fun _ => rfl) fun _ => rfl) fun value => ?_
  cases value with
  | some v => exact .before (.pure _) fun _ => hadd _
  | none => exact .before (.still (fun _ => rfl) fun _ => rfl) fun _ => hadd _

theorem enters_declareConstants (cs : List Constant) : (declareConstants cs).Enters [] := by
  induction cs with
  | nil => exact .pure ()
  | cons c cs ih =>
    obtain ⟨_, n, v⟩ := c
    exact .before (.get _) fun name => .before (enters_declareConstant name v) fun _ => ih

theorem enters_declareDefinition (f : Expr) (as : List Expr) : (declareDefinition f as).Enters [] := by
  unfold declareDefinition
  split
  · exact enters_declareConstant _ _
  · exact .pure ()

theorem enters_methodSymbols (owner : QualifiedName) (ms : List Method)
    (hms : ∀ m ∈ ms, m.function.declareBody.Enters m.function.definitions) :
    (methodSymbols owner ms).Enters (methodDefinitions ms) := by
  induction ms with
  | nil =>
    rw [methodSymbols, methodDefinitions]
    exact .pure []
  | cons m ms ih =>
    obtain ⟨f, isStatic⟩ := m
    obtain ⟨hf, hms⟩ := forall_mem_cons.mp hms
    refine .before (.get _) fun _ => hf.bind fun _ => ?_
    rw [← append_nil (methodDefinitions ms)]
    exact (ih hms).bind fun _ => .pure _

theorem enters_inClass {α : Type} (name : QualifiedName) {m : Step α} {fs : List Function}
    (hm : m.Enters fs) : (inClass name m).Enters fs :=
  .before (.get _) fun _ => .before (.modify (fun _ => rfl) fun _ => rfl) fun _ =>
    hm.ensuring (fun _ => rfl) fun _ => rfl

theorem enters_registerUses (cs : List UseClause) : (Step.modify (registerUses cs)).Enters [] := by
  refine .modify (fun s => ?_) fun s => ?_
  all_goals
    obtain ⟨us, hus⟩ := registerUses_eq cs s
    simp [hus]

/-- A function goes into the table before its body is searched. -/
theorem enters_function {f : Function} (hf : f.declareBody.Enters f.definitions) :
    (Stmt.function f).declare.Enters (f :: f.definitions) := by
  intro s a t h
  let s₁ : State :=
    { s with symbols := s.symbols.addFunction (f.symbol (s.qualify f.name) s) }
  have hrun : f.declareBody s₁ = (.ok a, t) := by
    exact h
  obtain ⟨hns, hsub, hfs⟩ := hf s₁ a t hrun
  refine ⟨hns, fun n hn => hsub (SymbolTable.functionNames_addFunction _ _ hn), ?_⟩
  refine forall_mem_cons.mpr ⟨?_, hfs⟩
  have hadded := s.symbols.hasFunction_addFunction (f.symbol (s.qualify f.name) s)
  exact hadded.mono hsub

theorem declareClosed_enters : DeclareClosed namespaceFree fun m fs => m.Enters fs where
  nothing := .pure ()
  sequence ha hb := ha.bind fun _ => hb
  unfollowed hm s a t h := ⟨(hm s a t h).1, (hm s a t h).2.1, by simp⟩
  definition _ f as _ := enters_declareDefinition f as
  function f _ hf := enters_function hf
  class_ r n p is ms isInterface _ hms := by
    refine .before (.get _) fun name => .before (.get _) fun head => ?_
    rw [← append_nil (methodDefinitions ms)]
    refine (enters_inClass name (enters_methodSymbols name ms hms)).bind fun methods => ?_
    refine .modify (fun _ => rfl) fun s => ?_
    unfold SymbolTable.addClass
    split <;> rfl
  namespace_ _ _ _ h := absurd h (by simp [namespaceFree])
  use _ cs _ := enters_registerUses cs
  const _ cs _ := enters_declareConstants cs

end FirstRound

section SecondRound

def State.SameNaming (s t : State) : Prop :=
  t.namespaceName = s.namespaceName ∧ t.symbols.functionNames = s.symbols.functionNames

/-- Functions of all these names are known, each in the current namespace. -/
def State.Knows (s : State) (names : List String) : Prop :=
  ∀ n ∈ names, s.symbols.HasFunction (nameIn s.namespaceName n)

theorem State.knows_nil (s : State) : s.Knows [] := by
  intro n hn
  cases hn

theorem State.SameNaming.knows {s t : State} (h : s.SameNaming t) {names : List String}
    (hs : s.Knows names) : t.Knows names := by
  intro n hn
  have hfound := hs n hn
  rw [← h.1] at hfound
  exact hfound.mono (by rw [h.2]; exact fun _ h => h)

instance (names : List String) : Nominal fun s t => s.Knows names → s.SameNaming t where
  trans hst htu hs :=
    have hsame := hst hs
    have hsame' := htu (hsame.knows hs)
    ⟨hsame'.1.trans hsame.1, hsame'.2.trans hsame.2⟩
  aside hns hsymbols _ _ := ⟨hns, by rw [hsymbols]⟩

/-- Where functions of these names are known, the step changes neither the namespace nor the names of the
functions. -/
abbrev Step.Respects {α : Type} (m : Step α) (names : List String) : Prop :=
  m.Shifts fun s t => s.Knows names → s.SameNaming t

namespace Step.Respects

variable {α : Type} {m : Step α} {names : List String}

theorem addReturn (type : TypeUnion) (value : Option Value) : (addReturn type value).Respects names := by
  intro s _
  change s.SameNaming (s.updateFrame _)
  cases hf : s.frames <;> simp [State.SameNaming, State.updateFrame, hf]

theorem inFrame (hm : m.Respects names) (name : Option QualifiedName) :
    (Step.inFrame name m).Respects names := by
  refine .bind (.get _) fun depth => .bind (fun _ _ => ⟨rfl, rfl⟩) fun _ =>
    .ensuring (.bind hm fun _ => .bind (.get _) fun _ => .pure _) fun s _ => ?_
  change s.SameNaming (leaveFrame depth s)
  unfold leaveFrame
  split <;> exact ⟨rfl, rfl⟩

end Step.Respects

open Step (Respects)

section Functions

variable {names : List String}

theorem forkClosed_respects (names : List String) : ForkClosed fun m => m.Respects names := forkClosed_shifts _

theorem respects_registerUses (cs : List UseClause) : (Step.modify (registerUses cs)).Respects names := by
  obtain ⟨g, hg⟩ := exists_registerUses_eq cs
  rw [funext hg]
  exact .modify

theorem Function.respects_infer (f : Function) (name : QualifiedName) {body : Step Bool}
    (hbody : body.Respects names) : (f.infer name body).Respects names := by
  refine (forkClosed_respects names).infer (fun _ name _ hm => ?_) f name hbody
  exact .bind (.get _) fun _ => .bind .modify fun _ =>
    .ensuring (Respects.inFrame hm name) .modify

/-- A function that is known is not added, and what is inferred about it does not change its name. -/
theorem Function.respects_define (f : Function) (hname : f.name ∈ names) {body : Step Bool}
    (hbody : body.Respects names) : (f.define body).Respects names := by
  intro s hs
  have hadd : s.symbols.addFunction (f.plainSymbol (s.qualify f.name)) = s.symbols :=
    SymbolTable.addFunction_of_hasFunction (hs f.name hname)
  let update (u : TypeUnion) (t : SymbolTable) : SymbolTable :=
    t.updateFunction (s.qualify f.name) fun g => { g with inferred := some u }
  let rest : Step Unit := do
    let u ← f.infer (s.qualify f.name) body
    Step.modify fun t => { t with symbols := update u t.symbols }
  have hrun : f.define body s = rest s := by
    change rest { s with symbols := s.symbols.addFunction (f.plainSymbol (s.qualify f.name)) } = _
    rw [hadd]
  rw [hrun]
  refine Step.Shifts.bind (f.respects_infer _ hbody) (fun u t _ => ?_) s hs
  exact ⟨rfl, SymbolTable.functionNames_updateFunction t.symbols _ u⟩

theorem Method.respects_define (m : Method) {body : Step Bool} (hbody : body.Respects names) :
    (m.define body).Respects names := by
  have hupdate : ∀ (owner : QualifiedName) (g : ClassSymbol → ClassSymbol), (Step.modify fun s =>
      { s with symbols := s.symbols.updateClass owner g }).Respects names :=
    fun owner g s _ => ⟨rfl, rfl⟩
  exact .bind (.get _) fun owner => .bind (hupdate owner _) fun _ =>
    .bind (m.function.respects_infer _ hbody) fun _ => hupdate owner _

theorem respects_analyzeMethods (ms : List Method)
    (hms : ∀ m ∈ ms, (m.define (m.function.analyzeBody .method)).Respects names) :
    (analyzeMethods ms).Respects names := by
  induction ms with
  | nil =>
    rw [analyzeMethods]
    exact .pure ()
  | cons m ms ih =>
    rw [forall_mem_cons] at hms
    obtain ⟨f, isStatic⟩ := m
    exact .bind (.guarded (.bind hms.1 fun _ => .pure true) f.range true) fun _ => ih hms.2

end Functions

theorem analysisClosed_respects (names : List String) :
    AnalysisClosed namespaceFree (fun f => f.name ∈ names) .nothing (fun _ _ _ m => m.Respects names)
      fun _ _ m => m.Respects names where
  toLeafClosed := (forkClosed_respects names).small.leaves (storeClosed_shifts _)
  lawful := Grade.lawful_nothing
  pure := .pure
  bind := .bind
  use _ cs _ := respects_registerUses cs
  addVoid := .bind (Respects.addReturn _ _) fun _ => .pure true
  function f _ hname hbody := f.respects_define hname hbody
  goesOn := .pure true
  passesBy _ := .pure true
  after := .bind
  andThen ha hb := (forkClosed_respects names).andThen ha hb
  guarded r hm := hm.guarded r true
  syntaxError _ _ _ _ := .bind (.query _) fun _ => .pure false
  addReturned _ := .bind (.query _) fun _ => .bind (.query _) fun _ => .bind (Respects.addReturn _ _) fun _ => .pure true
  detour hm ha side := (forkClosed_respects names).detour hm ha side
  choice c _ _ _ _ ha hb := (forkClosed_respects names).choice c ha hb
  inLoop := .inLoop
  switchArms hasDefault _ _ _ harms :=
    (forkClosed_respects names).switchArms hasDefault (forall_mem_of_forall₂ harms)
  method m _ hbody := m.respects_define hbody
  class_ r n p is ms isInterface k _ hms := by
    rw [Stmt.analyze]
    refine .bind (.get _) fun name => .bind ?_ fun _ => .pure true
    exact .bind (.get _) fun _ => .bind .modify fun _ =>
      .ensuring (respects_analyzeMethods ms hms) .modify
  namespace_ _ _ _ h := absurd h (by simp [namespaceFree])

end SecondRound

section Programs

open SymbolTable (HasFunction)

variable {σ : State}

/-- What the first round does with a direct statement of a program. -/
theorem Stmt.enters_direct (s : Stmt) (hs : s.nestsNoNamespace = true) {τ : State}
    (hrun : s.declare σ = (.ok (), τ)) : τ.namespaceName = s.namespaceAfter σ.namespaceName ∧
      σ.symbols.functionNames ⊆ τ.symbols.functionNames ∧
      ∀ q ∈ s.namesIn σ.namespaceName, τ.symbols.HasFunction q := by
  cases s with
  | namespace_ r n b =>
    cases b with
    | none =>
      obtain rfl : { σ with namespaceName := namespaceOf n, uses := [] } = τ := (Prod.mk.inj hrun).2
      exact ⟨rfl, fun _ h => h, by simp [namesIn, bodyDefinitions]⟩
    | some b =>
      -- The body is searched in its own namespace, and then the old one is back.
      let σ₁ : State := { σ with namespaceName := namespaceOf n, uses := [] }
      have hdeclare : (Stmt.namespace_ r n (some b)).declare σ = Step.ensuring b.declare (Step.modify
          fun s => { s with namespaceName := σ.namespaceName, uses := σ.uses }) σ₁ := rfl
      have henters := b.declare_induction declareClosed_enters hs
      obtain ⟨τ₁, hb, ⟨⟩⟩ := Step.exists_of_ensuring_eq_ok (hdeclare.symm.trans hrun)
      obtain ⟨-, hsub, hfs⟩ := henters σ₁ () τ₁ hb
      refine ⟨rfl, hsub, fun q hq => ?_⟩
      obtain ⟨f, hf, rfl⟩ := mem_map.mp hq
      exact hfs f hf
  | _ =>
    obtain ⟨hns, hsub, hfs⟩ := Stmt.declare_induction declareClosed_enters _ hs σ () τ hrun
    refine ⟨hns, hsub, fun q hq => ?_⟩
    obtain ⟨f, hf, rfl⟩ := mem_map.mp hq
    exact hfs f hf

theorem enters_program {ss : List Stmt} (hss : ss.all Stmt.nestsNoNamespace = true) {τ : State}
    (hrun : declareStatements ss σ = (.ok (), τ)) :
    σ.symbols.functionNames ⊆ τ.symbols.functionNames ∧
      ∀ q ∈ definedNames σ.namespaceName ss, τ.symbols.HasFunction q := by
  induction ss generalizing σ with
  | nil =>
    obtain rfl : σ = τ := (Prod.mk.inj hrun).2
    exact ⟨fun _ h => h, by simp [definedNames]⟩
  | cons s ss ih =>
    rw [all_cons, Bool.and_eq_true] at hss
    obtain ⟨_, σ₁, hs, hstep⟩ := Step.exists_of_bind_eq_ok hrun
    obtain ⟨hns, hsub, hfs⟩ := s.enters_direct hss.1 hs
    obtain ⟨hsub', hgs⟩ := ih hss.2 hstep
    rw [definedNames, forall_mem_append, ← hns]
    exact ⟨fun n hn => hsub' (hsub hn), fun q hq => (hfs q hq).mono hsub', hgs⟩

/-- What the second round does with a direct statement of a program whose functions are known. -/
theorem Stmt.respects_direct (s : Stmt) (hs : s.nestsNoNamespace = true) (k : NodeKind)
    (hknown : ∀ q ∈ s.namesIn σ.namespaceName, σ.symbols.HasFunction q) :
    (s.analyze k σ).2.symbols.functionNames = σ.symbols.functionNames ∧
      (s.analyze k σ).2.namespaceName = s.namespaceAfter σ.namespaceName := by
  have hrespects : ∀ (b : Stmt) (k : NodeKind) (ρ : State), b.throughout namespaceFree = true →
      (∀ f ∈ b.definitions, ρ.symbols.HasFunction (nameIn ρ.namespaceName f.name)) →
      ρ.SameNaming (b.analyze k ρ).2 := by
    intro b k ρ hb hf
    refine b.analyze_induction (b := true) (analysisClosed_respects (b.definitions.map (·.name))) hb
      (fun f hf => mem_map_of_mem hf) k ρ ?_
    intro n hn
    obtain ⟨f, hmem, rfl⟩ := mem_map.mp hn
    exact hf f hmem
  cases s with
  | namespace_ r n b =>
    cases b with
    | none => exact ⟨rfl, rfl⟩
    | some b =>
      let σ₁ : State := { σ with namespaceName := namespaceOf n, uses := [] }
      have hanalyze : (Stmt.namespace_ r n (some b)).analyze k σ = Step.ensuring (b.analyze .namespace_)
          (Step.modify fun s => { s with namespaceName := σ.namespaceName, uses := [] }) σ₁ := rfl
      have hsame := hrespects b .namespace_ σ₁ hs fun f hf => hknown _ (mem_map_of_mem hf)
      exact ⟨hsame.2, rfl⟩
  | _ =>
    have hsame := hrespects _ k σ hs fun f hf => hknown _ (mem_map_of_mem hf)
    exact ⟨hsame.2, hsame.1⟩

/-- The functions stay the same in two steps if they do in each. -/
theorem functionNames_bind {α β : Type} {m : Step α} {f : α → Step β}
    (hm : (m σ).2.symbols.functionNames = σ.symbols.functionNames)
    (hf : ∀ a τ, m σ = (.ok a, τ) → (f a τ).2.symbols.functionNames = τ.symbols.functionNames) :
    ((m >>= f) σ).2.symbols.functionNames = σ.symbols.functionNames := by
  rcases hms : m σ with ⟨e | a, τ⟩ <;> rw [hms] at hm
  · rwa [Step.bind_eq_of_error hms]
  · rw [Step.bind_eq_of_ok hms]
    exact (hf a τ hms).trans hm

theorem respects_program {ss : List Stmt} (hss : ss.all Stmt.nestsNoNamespace = true) (k : NodeKind)
    (hknown : ∀ q ∈ definedNames σ.namespaceName ss, σ.symbols.HasFunction q) :
    (analyzeStatements ss k σ).2.symbols.functionNames = σ.symbols.functionNames := by
  induction ss generalizing σ with
  | nil => rfl
  | cons s ss ih =>
    rw [all_cons, Bool.and_eq_true] at hss
    rw [definedNames, forall_mem_append] at hknown
    -- What is known stays known as long as the names of the functions are the same.
    have hstill : ∀ (names : List QualifiedName) (ρ : State),
        ρ.symbols.functionNames = σ.symbols.functionNames → (∀ q ∈ names, σ.symbols.HasFunction q) →
        ∀ q ∈ names, ρ.symbols.HasFunction q :=
      fun names ρ hρ h q hq => (h q hq).mono (by rw [hρ]; exact fun _ h => h)
    by_cases hcomment : ∃ r t, s = .comment r t
    · obtain ⟨r, t, rfl⟩ := hcomment
      have hkeep : σ.SameNaming (keepDoc t r σ).2 :=
        (forkClosed_respects []).small.keepDoc (b := true) t r σ (State.knows_nil σ)
      refine functionNames_bind hkeep.2 fun _ ρ hρ => ih hss.2 ?_
      rw [hρ] at hkeep
      rw [hkeep.1]
      exact hstill _ ρ hkeep.2 hknown.2
    · have happly : σ.SameNaming (applyDoc s.assigned? σ).2 :=
        (forkClosed_respects []).small.applyDoc s.assigned? σ (State.knows_nil σ)
      rw [analyzeStatements]
      · refine functionNames_bind happly.2 fun _ ρ hρ => ?_
        rw [hρ] at happly
        have hdirect := s.respects_direct hss.1 k (σ := ρ)
          (by rw [happly.1]; exact hstill _ ρ happly.2 hknown.1)
        refine functionNames_bind hdirect.1 fun ok ρ' hρ' => ?_
        rw [hρ'] at hdirect
        cases ok with
        | false => rfl
        | true =>
          refine ih hss.2 ?_
          rw [hdirect.2, happly.1]
          exact hstill _ ρ' (hdirect.1.trans happly.2) hknown.2
      · exact fun r t he => hcomment ⟨r, t, he⟩

/-- If namespaces are direct statements of a program only, then after the first round there is a function
under every name that the second round can look up, and wherever the second round starts with these
functions, it leaves the functions in the table what they are, however it ends. -/
theorem second_round_adds_no_function (r : Range) (ss : List Stmt)
    (hss : ss.all Stmt.nestsNoNamespace = true) (s t : State) (hs : s.namespaceName = none)
    (hcollect : (Stmt.program r ss).collect s = (.ok (), t)) :
    t.namespaceName = none ∧ (∀ q ∈ definedNames none ss, t.symbols.HasFunction q) ∧
    ∀ (u : State) (where_ : NodeKind), u.namespaceName = none →
      t.symbols.functionNames ⊆ u.symbols.functionNames →
      ((Stmt.program r ss).analyze where_ u).2.symbols.functionNames = u.symbols.functionNames := by
  obtain ⟨_, t₁, hds, ⟨⟩⟩ := Step.exists_of_bind_eq_ok hcollect
  have henters := (enters_program hss hds).2
  rw [hs] at henters
  refine ⟨rfl, henters, fun u where_ hu hsub => ?_⟩
  have hrespects := respects_program hss .program (σ := u)
    (by rw [hu]; exact fun q hq => (henters q hq).mono hsub)
  have hguarded : ((Stmt.program r ss).analyze where_ u).2.symbols =
      (analyzeStatements ss .program u).2.symbols := by
    rw [Stmt.analyze, Step.guarded]
    split
    · next h => rw [h]
    · next h =>
      rw [h]
      split <;> rfl
  rw [hguarded]
  exact hrespects

def plainFunction (name : String) (body : List Stmt) : Function :=
  ⟨.zero, name, [], some (.block .zero body), none, none⟩

/-- `namespace A; function f() { function g() {} } namespace B { class C { function m() { function h() {} } } }
if ($x) { function k() {} }` -/
def scatteredFunctions : List Stmt :=
  [.namespace_ .zero "A" none,
   .function (plainFunction "f" [.function (plainFunction "g" [])]),
   .namespace_ .zero "B" (some (.block .zero
     [.class_ .zero "C" none [] [⟨plainFunction "m" [.function (plainFunction "h" [])], false⟩] false])),
   .ifElse .zero (.var .zero "x") (.block .zero [.function (plainFunction "k" [])]) [] none]

def scatteredCollected : State :=
  ((Stmt.program .zero scatteredFunctions).collect (.new {} {} none .discarding)).2

/-- The functions are found in functions, methods and branches, under namespaces of both forms. -/
theorem scatteredFunctions_stay_known :
    scatteredFunctions.all Stmt.nestsNoNamespace = true ∧
    (Stmt.program .zero scatteredFunctions).collect (.new {} {} none .discarding) =
      (.ok (), scatteredCollected) ∧
    (definedNames none scatteredFunctions).map QualifiedName.parts =
      [["A", "f"], ["A", "g"], ["B", "h"], ["A", "k"]] ∧
    (∀ q ∈ definedNames none scatteredFunctions, scatteredCollected.symbols.HasFunction q) ∧
    ((Stmt.program .zero scatteredFunctions).analyze .program scatteredCollected).2.symbols.functionNames =
      scatteredCollected.symbols.functionNames := by
  have hss : scatteredFunctions.all Stmt.nestsNoNamespace = true := by decide
  have hcollect : (Stmt.program .zero scatteredFunctions).collect (.new {} {} none .discarding) =
      (.ok (), scatteredCollected) := rfl
  obtain ⟨hns, hknown, hsame⟩ :=
    second_round_adds_no_function .zero scatteredFunctions hss _ scatteredCollected rfl hcollect
  exact ⟨hss, hcollect, by decide +kernel, hknown,
    hsame scatteredCollected .program hns (List.Subset.refl _)⟩

end Programs

end PhpFlow
