import PhpFlow.Proofs.Definitions
import PhpFlow.Proofs.Tallying

/-!
# Every place counts once

The analysis of code adds to the counts of the current scope a read for each place that reads a variable, and
a write for each place that writes one, wherever in branches and loops the place is. This holds for code
without syntax errors and without declarations of global variables.
-/
namespace PhpFlow

open Step (Acts Adds Completes)
open Usage (reading writing)

variable {u : Usage}

section Small

theorem noteClosed_adds : NoteClosed fun _ _ m => m.Adds .none where
  pure := .pure
  bind := .after
  guarded _ _ hm := Acts.guarded hm
  get hf := .get hf.rest
  currentScope := .currentScope
  query hq := .query hq.orderly.faults
  mark name := .touch name fun _ => rfl
  comment name _ := .touch name fun _ => rfl
  waiting := .get fun _ => rfl
  setDoc _ := .modify {} fun _ => rfl

theorem adds_readVariable (r : Range) (name : String) : (readVariable r name).Adds
    (reading (if name = "this" || superglobals.contains name then [] else [name])) := by
  unfold readVariable
  by_cases hambient : (name = "this" || superglobals.contains name) = true
  · rw [if_pos hambient, if_pos hambient]
    exact .pure ()
  · have hread := Adds.read name (some r)
    rw [if_neg hambient, if_neg hambient]
    refine Acts.guarded (Adds.after .currentScope fun sc => ?_)
    split
    · exact .after (noteClosed_adds.reportUnknown r name false) fun _ => hread
    · split
      · exact .after (noteClosed_adds.reportUnknown r name _) fun _ => hread
      · split
        · exact .after (.report _ _ _) fun _ => hread
        · exact hread

/-- A target is written once for every variable in it. -/
theorem storeClosed_adds : StoreClosed fun xs _ m => m.Adds (writing xs) where
  pure := .pure
  bind := .bind
  query hq := .query hq.orderly.faults
  keepValue _ := .get fun _ => rfl
  write name u v r := .after (.get fun _ => rfl) fun v => .write name u v r
  writeElement r base index u := by
    unfold writeElement
    cases base.root? with
    | none => exact .report _ _ _
    | some root => exact .after .currentScope fun _ => .write _ _ _ _
  caughtType _ := .get fun _ => rfl

end Small

section Functions

variable {body : Step Bool}

/-- Between `l` and `l'` parameters with these names were declared. Each of them counts as one write. -/
structure Local.Declares (names : List String) (l l' : Local) : Prop where
  next : l.next ≤ l'.next
  orderly : l'.scope.Orderly l'.next
  reads : ∀ x, l'.scope.reads x = l.scope.reads x
  writes : ∀ x, (l'.scope.trail x).history.length = (l.scope.trail x).history.length + names.count x
  arguments : ∀ x, l'.scope.isArgument x = (l.scope.isArgument x || decide (x ∈ names))
  config : l'.rest.config = l.rest.config

namespace Local.Declares

variable {l m l' : Local} {xs ys : List String}

theorem of_adds (h : l.Adds .none l') : l.Declares [] l' where
  next := h.gains.next
  orderly := h.orderly
  reads x := by simpa [Usage.none] using h.gains.reads x
  writes x := by simpa [Usage.none] using h.gains.writes x
  arguments x := by simp [h.gains.arguments x]
  config := h.config

theorem trans (h : l.Declares xs m) (h' : m.Declares ys l') : l.Declares (xs ++ ys) l' where
  next := Nat.le_trans h.next h'.next
  orderly := h'.orderly
  reads x := (h'.reads x).trans (h.reads x)
  writes x := by
    rw [h'.writes, h.writes, List.count_append]
    omega
  arguments x := by
    rw [h'.arguments, h.arguments, Bool.or_assoc]
    simp
  config := h'.config.trans h.config

theorem bind {name : String} {f : Variable → Variable} (h : l.scope.Orderly l.next)
    (hname : ∀ v, (f v).name = v.name) (htrail : ∀ v, (f v).trail = v.trail)
    (hwrites : ∀ v, (f v).writes = v.writes) (hreads : ∀ v, (f v).reads = v.reads)
    (hargument : ∀ v, (f v).isArgument = true) {w : Write} (hw : w.id = l.next) :
    l.Declares [name] { l with
      scope := (l.scope.updateVar name f).updateVar name (·.write w), next := l.next + 1 } := by
  have horderly := h.updateVar hname name htrail hwrites
  have hgains := Scope.Gains.write horderly name hw
  refine ⟨hgains.next, hgains.orderly, fun x => ?_, fun x => ?_, fun x => ?_, rfl⟩
  · rw [hgains.reads, Scope.reads_updateVar hname]
    by_cases hx : x = name
    · cases hv : l.scope.var? name <;> simp [hx, hreads, writing, Scope.reads, hv]
    · simp [hx, writing]
  · rw [hgains.writes, Scope.trail_updateVar_keep l.scope hname htrail]
    rfl
  · rw [hgains.arguments, Scope.isArgument_updateVar hname]
    by_cases hx : x = name <;> simp [hx, hargument]

end Local.Declares

theorem acts_bindParameter (doc : Option DocComment) (p : Parameter) :
    (bindParameter doc p).Acts fun l _ l' => l.scope.Orderly l.next → l.Declares [p.name] l' := by
  -- Whatever is known about the parameter by now, it is declared and written.
  have hlast : ∀ (declared comment : Option TypeUnion) (default : Option Value) (type : TypeUnion),
      (do
        Step.updateVar p.name fun v =>
          { v with isArgument := true, declaredType := declared, commentType := comment, default }
        Step.write p.name type none (some p.range) : Step Unit).Acts fun l _ l' =>
          l.scope.Orderly l.next → l.Declares [p.name] l' := by
    intro declared comment default type
    let declare : Variable → Variable := fun v =>
      { v with isArgument := true, declaredType := declared, commentType := comment, default }
    refine (Acts.bind (Acts.updateVar p.name declare) fun _ => Acts.write _ _ _ _).mono ?_
    rintro l _ l' ⟨-, _, rfl, rfl⟩ h
    exact .bind (f := declare) (w := ⟨l.next, type, none, some p.range⟩) h (fun _ => rfl) (fun _ => rfl)
      (fun _ => rfl) (fun _ => rfl) (fun _ => rfl) rfl
  have hafter : ∀ {α : Type} {m : Step α} {f : α → Step Unit}, m.Adds .none →
      (∀ a, (f a).Acts fun l _ l' => l.scope.Orderly l.next → l.Declares [p.name] l') →
      (m >>= f).Acts fun l _ l' => l.scope.Orderly l.next → l.Declares [p.name] l' := by
    intro α m f hm hf
    refine (Acts.bind hm hf).mono ?_
    rintro l _ l' ⟨_, l₁, h₁, h₂⟩ h
    exact (Local.Declares.of_adds (h₁ h)).trans (h₂ (h₁ h).orderly)
  refine hafter (noteClosed_adds.readParameterType (b := true) p) fun written => ?_
  refine hafter (noteClosed_adds.readParameterDoc (b := true) doc p.name) fun documented => ?_
  split
  · exact hafter (.pure none) fun default => hlast _ _ _ _
  · exact hafter (.query (Expr.numericFaults_value _)) fun default => hlast _ _ _ _

theorem acts_bindParameters (doc : Option DocComment) (ps : List Parameter) :
    (bindParameters doc ps).Acts fun l _ l' =>
      l.scope.Orderly l.next → l.Declares (ps.map (·.name)) l' := by
  induction ps with
  | nil => exact Acts.mono (Adds.pure ()) fun _ _ _ h hl => .of_adds (h hl)
  | cons p ps ih =>
    refine (Acts.bind (acts_bindParameter doc p) fun _ => ih).mono ?_
    rintro l _ l' ⟨_, l₁, h₁, h₂⟩ h
    exact (h₁ h).trans (h₂ (h₁ h).orderly)

/-- A function has declared parameters with these names, and its body has used what `u` lists. -/
def Local.Ran (names : List String) (u : Usage) (l l' : Local) : Prop :=
  l.scope.Orderly l.next → ∃ m, l.Declares names m ∧ m.Adds u l'

theorem Function.ends_counted (f : Function) (hbody : body.Completes u) {s : State} {h : Handle} {sc : Scope}
    (w : s.Working h sc) :
    (f.run body).Ends s
      (fun root t => root = h ∧ Undisturbed h s t ∧ ∃ sc', t.arena.scope? h = some sc' ∧
        (s.localView sc).Ran (f.parameters.map (·.name)) u (t.localView sc'))
      (fun t => t.stack = s.stack) := by
  refine (f.ends_run (acts_bindParameters f.docComment? f.parameters)
    (noteClosed_adds.readDocType (b := true)) (fun h h' hl => ?_) hbody w).mono ?_ fun _ ht => ht
  · simpa using (h hl).trans (.of_adds (h' (h hl).orderly))
  · rintro root t ⟨hroot, hu, sc', hsc', l₁, ok, h₁, h₂⟩
    exact ⟨hroot, hu, sc', hsc', fun hl => ⟨l₁, h₁ hl, (h₂ (h₁ hl).orderly).2⟩⟩

theorem Function.proceeds_run (f : Function) (hbody : body.Completes u) :
    (f.run body >>= reportUnused).Proceeds := by
  intro s h sc w
  refine Step.Ends.next (f.ends_counted hbody w) ?_
  rintro _ t ⟨rfl, hu, sc', hsc', hran⟩
  refine Step.Runs.of_eq ((reportUnused_eq hsc').trans (congrArg _ (Step.foldl_emit _ t))) ?_
  refine ⟨⟨hu.stack, hu.others, hu.placed⟩, sc', hsc', fun horderly => ?_⟩
  obtain ⟨m, hdeclares, hadds⟩ := hran horderly
  exact ⟨Nat.le_trans hdeclares.next hadds.gains.next, hadds.config.trans hdeclares.config⟩

theorem adds_withTemplates {α : Type} (names : List String) {m : Step α} (hm : m.Adds u) :
    (withTemplates names m).Adds u :=
  .after (.get fun _ => rfl) fun _ => .after (.modify {} fun _ => rfl) fun _ => .ensuring hm {} fun _ => rfl

theorem adds_inClass {α : Type} (name : QualifiedName) {m : Step α} (hm : m.Adds u) :
    (inClass name m).Adds u :=
  .after (.get fun _ => rfl) fun _ => .after (.modify {} fun _ => rfl) fun _ => .ensuring hm {} fun _ => rfl

theorem Function.adds_infer (f : Function) (name : QualifiedName) (hbody : body.Completes u) :
    (f.infer name body).Adds .none := by
  rw [f.infer_eq]
  exact .after (adds_withTemplates _ ((f.proceeds_run hbody).inFrame _)) fun _ => .pure _

theorem definesClosed_adds : DefinesClosed fun m => m.Adds .none where
  pure := .pure
  bind := .after
  get hf := .get hf.rest
  change hg := .modify hg.restOnly (hg.keeps fun _ _ _ _ => rfl)
  ensuring hm hg := .ensuring hm hg.restOnly (hg.keeps fun _ _ _ _ => rfl)
  inClass := adds_inClass

end Functions

section Grades

theorem lawful_usage : usageGrade.Lawful where
  one_mul _ := rfl
  mul_one := Usage.append_none
  reading_nil := rfl
  reading_append _ _ := rfl
  writing_nil := rfl
  writing_append _ _ := rfl

end Grades

section Statements

theorem adds_addReturn (type : TypeUnion) (value : Option Value) : (addReturn type value).Adds .none := by
  refine .modify (restOnly_addReturn type value) fun s => ?_
  cases hf : s.frames <;> simp [State.updateFrame, hf]

theorem ne_nil_of_forall₂ {us : List Usage} {ms : List (Step Bool)}
    (h : List.Forall₂ (fun u m => m.Completes u) us ms) (hne : ms ≠ []) : us ≠ [] := by
  rintro rfl
  cases h
  exact hne rfl

def plainNodes : NodeTest where
  expr
    | .error _ _ => false
    | _ => true
  stmt
    | .global _ _ => false
    | _ => true

/-- The analysis of a statement counts what the statement uses. -/
theorem analysisClosed_completes : AnalysisClosed plainNodes (fun _ => True) usageGrade
    (fun _ u _ m => m.Adds u) fun _ u m => m.Completes u where
  lawful := lawful_usage
  pure := .pure
  bind := .bind
  type e := .query e.numericFaults_type
  value e := .query e.numericFaults_value
  missing _ _ := .report _ _ _
  readVariable := adds_readVariable
  storeFrom := storeClosed_adds.storeFrom
  storeUpdate := storeClosed_adds.storeUpdate
  bindElement := storeClosed_adds.bindElement
  bindCaught := storeClosed_adds.bindCaught
  keepDoc r t _ := noteClosed_adds.keepDoc (b := true) t r
  applyDoc := noteClosed_adds.applyDoc
  declareGlobals _ _ h := absurd h (by simp [plainNodes])
  use _ cs _ := definesClosed_adds.registerUses cs
  function f _ _ hbody := definesClosed_adds.define f fun name => f.adds_infer name hbody
  goesOn := .continue_
  passesBy _ := .continue_
  after := .after
  andThen := .andThen
  guarded _ hm := Acts.guarded hm
  syntaxError _ _ _ h := absurd h (by simp [plainNodes])
  addVoid := .thenContinue (adds_addReturn _ _)
  addReturned e := .after (u := .none) (.query e.numericFaults_type) fun _ =>
    .after (u := .none) (.query e.numericFaults_value) fun _ =>
      .after (u := .none) (adds_addReturn _ _) fun _ => .continue_
  detour hm ha side := .detour hm ha side
  choice c _ _ _ _ ha hb := .choice c ha hb
  inLoop := .inLoop
  switchArms _ _ _ hne harms := .switchArms harms.flip fun h => ne_nil_of_forall₂ harms (hne h)
  method m _ hbody := definesClosed_adds.defineMethod m fun name => m.function.adds_infer name hbody
  class_ r n p is ms isInterface k _ hms := definesClosed_adds.class_ (P := fun m => m.Completes .none)
    (.after (u := .none)) r n p is ms isInterface k .continue_
    (fun hm _ => Acts.guarded (Adds.after hm fun _ => .pure true)) hms
  namespace_ _ n body _ hbody := definesClosed_adds.inNamespace (Step.Completes.after (u := .none))
    (fun hm hg => .ensuring hm hg.restOnly (hg.keeps fun _ _ _ _ => rfl)) n
    (fun hnone => by cases body <;> first | exact .continue_ | cases hnone) hbody

theorem Function.completes_body (f : Function) (hf : ∀ b ∈ f.body, b.Every NodeKind.Plain) (k : NodeKind) :
    (f.analyzeBody k).Completes f.usage := by
  match f with
  | ⟨_, _, _, none, _, _⟩ => exact .continue_
  | ⟨_, _, _, some b, _, _⟩ =>
    refine b.analyze_induction analysisClosed_completes (b := true)
      (b.throughout_of_passes (K := NodeKind.Plain) ⟨fun e he => ?_, fun s hs => ?_⟩ (hf b rfl))
      (fun _ _ => trivial) k
    · cases e <;> simp_all [plainNodes, Expr.outline, NodeKind.Plain]
    · cases s <;> simp_all [plainNodes, Stmt.outline, NodeKind.Plain]

end Statements

end PhpFlow
