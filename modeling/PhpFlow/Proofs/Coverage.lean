import PhpFlow.Proofs.Course
import PhpFlow.Proofs.Definitions

/-!
# Every analysis keeps to its course

Both rounds of an analysis, on whatever code, lead from states that occur in the course of an analysis to
such states. The steps of each construct are followed here one by one; a value that is written, returned or
declared is shown to be one that was computed before.
-/
namespace PhpFlow

open Step (Remains)

section Steps

/-- Noting something about a variable makes no write. -/
theorem Variable.Notes.isChange {made : List Write} {f : Variable → Variable} (hf : Variable.Notes f) :
    Variable.IsChange made made f where
  name v := by
    obtain ⟨_, _, _, _, _, hv⟩ := hf v
    rw [hv]
  history v := by
    obtain ⟨_, _, _, _, _, hv⟩ := hf v
    simp [hv]
  accounted v h := by
    obtain ⟨_, _, _, _, _, hv⟩ := hf v
    exact h.congr (by rw [hv]) (by rw [hv]) (by rw [hv])

theorem stepClosed_remains : StepClosed fun _ _ m => m.Remains where
  pure := .pure
  bind := .bind
  guarded r fallback hm := hm.guarded r fallback
  get _ := .get _
  currentScope := .getFault _
  query _ := .query _
  read name _ := .updateVar name fun _ => .read _
  note name _ hf := .updateVar name fun _ => hf.isChange
  write _ _ _ := .write _ _ .none _
  waiting := .get _
  setDoc _ := Remains.modify

theorem forkClosed_remains : ForkClosed fun m => m.Remains where
  small := stepClosed_remains
  getFault f _ := .getFault f
  branch := .branch
  narrowed h name u := .noteVar h name fun _ => .set (.narrowed (some u))
  merge := .merge
  discard := .discard
  inScope h _ hm := hm.inScope h

end Steps

section Stores

/-- What is kept of a computed value has been computed. -/
theorem delivers_keepValue {v : Option Value} (hv : Computed v) : (keepValue v).Delivers Computed := by
  intro s _ w hw
  obtain rfl := Except.ok.inj hw
  dsimp only
  split
  · exact .none
  · exact hv

mutual

theorem Expr.remains_write (e : Expr) (u : TypeUnion) {v : Option Value} (hv : Computed v) :
    (e.write u v).Remains := by
  cases e with
  | paren _ a => exact a.remains_write u hv
  | var r n =>
    rw [Expr.write]
    split
    · exact .pure ()
    · exact .bindDelivers (.get _) (delivers_keepValue hv) fun _ hw => .write _ _ hw _
  | subscript r b i => exact stepClosed_remains.writeElement r b i u
  | array _ es =>
    exact .bindDelivers (.get _) (delivers_keepValue hv) fun _ hw => remains_writeElements 0 u hw es
  | _ =>
    rw [Expr.write]
    · exact .query _
    all_goals nofun

theorem remains_writeElements (next : Int) (u : TypeUnion) {v : Option Value} (hv : Computed v)
    (es : List Element) : (writeElements next u v es).Remains := by
  cases es with
  | nil => exact .pure ()
  | cons e es =>
    obtain ⟨_, target, k, _, _⟩ := e
    refine .bind (.query _) fun key => ?_
    exact .bind (target.remains_write _ (hv.elementOf u _)) fun _ => remains_writeElements _ u hv es

end

theorem Expr.remains_store (e : Expr) (u : Option TypeUnion) {v : Option Value} (hv : Computed v) :
    (e.store u v).Remains := e.remains_write _ hv

theorem Expr.remains_storeFrom (target source : Expr) (keepsValue : Bool) :
    (target.storeFrom source keepsValue).Remains := by
  refine .bind (.query _) fun u => ?_
  cases keepsValue with
  | true => exact Remains.bindDelivers (.query _) (Step.delivers_value source) fun _ hv => target.remains_store u hv
  | false => exact target.remains_store u .none

theorem Expr.remains_storeUpdate (r : Range) (op : String) (argument : Expr) (before : Bool) :
    (Expr.storeUpdate r op argument before).Remains :=
  .bindDelivers (.query _) (Step.delivers_value argument) fun _ hcurrent =>
    .bindDelivers (Q := Computed) (.query _) (fun _ _ _ hv => hcurrent.updatedValue hv) fun _ hv =>
      .bind (.query _) fun u => argument.remains_store u hv

/-- Whatever is bound to a variable before the body of a loop or a clause has no known value. -/
theorem remains_bindElement (key : Option Expr) (value : Expr) (types : TypeUnion × TypeUnion) :
    (bindElement key value types).Remains := by
  cases key with
  | none => exact value.remains_store _ .none
  | some k => exact .bind (k.remains_store _ .none) fun _ => value.remains_store _ .none

theorem remains_bindCaught (types : List String) (v : Option VariableName) :
    (bindCaught types v).Remains := by
  cases v with
  | none => exact .pure ()
  | some v => exact .bind (.get _) fun _ => Expr.remains_store _ _ .none

theorem remains_addReturn (type : TypeUnion) {value : Option Value} (hv : Computed value) :
    (addReturn type value).Remains := by
  rintro s ⟨made, hcourse⟩
  obtain ⟨s₀, ⟨made₀, hcourse₀⟩, hyields⟩ := hv
  exact ⟨made, hcourse.return_ type hcourse₀ hyields⟩

end Stores

section Functions

variable {body : Step Bool}

theorem remains_withTemplates {α : Type} (names : List String) {m : Step α} (hm : m.Remains) :
    (withTemplates names m).Remains :=
  .bind (.get _) fun _ => .bind Remains.modify fun _ => hm.ensuring Remains.modify

theorem remains_inClass {α : Type} (name : QualifiedName) {m : Step α} (hm : m.Remains) :
    (inClass name m).Remains :=
  .bind (.get _) fun _ => .bind Remains.modify fun _ => hm.ensuring Remains.modify

theorem Function.remains_infer (f : Function) (name : QualifiedName) (hbody : body.Remains) :
    (f.infer name body).Remains :=
  forkClosed_remains.infer (fun names name _ hm => remains_withTemplates names (.inFrame name hm)) f name hbody

theorem NameChange.remains {g : State → State} (hg : NameChange g) : (Step.modify g).Remains :=
  Remains.modify (hg.keeps fun _ _ _ _ => rfl) hg.constants (hg.keeps fun _ _ _ _ => rfl)

theorem definesClosed_remains : DefinesClosed fun m => m.Remains where
  pure := .pure
  bind := .bind
  get _ := .get _
  change hg := hg.remains
  ensuring hm hg := hm.ensuring hg.remains
  inClass := remains_inClass

end Functions

section Rounds

theorem analysisClosed_remains :
    AnalysisClosed anyCode (fun _ => True) .nothing (fun _ _ _ m => m.Remains) fun _ _ m => m.Remains where
  lawful := Grade.lawful_nothing
  pure := .pure
  bind := .bind
  type _ := .query _
  value _ := .query _
  missing _ _ := .query _
  readVariable := stepClosed_remains.readVariable (b := true)
  storeFrom := Expr.remains_storeFrom
  storeUpdate := Expr.remains_storeUpdate
  bindElement := remains_bindElement
  bindCaught := remains_bindCaught
  keepDoc r t _ := stepClosed_remains.keepDoc (b := true) t r
  applyDoc := stepClosed_remains.applyDoc
  declareGlobals _ vs _ := stepClosed_remains.declareGlobals vs
  use _ cs _ := definesClosed_remains.registerUses cs
  addVoid := .bind (remains_addReturn _ .none) fun _ => .pure true
  function f _ _ hbody := definesClosed_remains.define f fun name => f.remains_infer name hbody
  goesOn := .pure true
  passesBy _ := .pure true
  after := .bind
  andThen ha hb := forkClosed_remains.andThen ha hb
  guarded r hm := hm.guarded r true
  syntaxError _ _ _ _ := .bind (.query _) fun _ => .pure false
  addReturned e := .bind (.query _) fun _ => Remains.bindDelivers (.query _) (Step.delivers_value e) fun _ hv =>
    .bind (remains_addReturn _ hv) fun _ => .pure true
  detour hm ha side := forkClosed_remains.detour hm ha side
  choice c _ _ _ _ ha hb := forkClosed_remains.choice c ha hb
  inLoop := .inLoop
  switchArms hasDefault _ _ _ harms := forkClosed_remains.switchArms hasDefault (forall_mem_of_forall₂ harms)
  method m _ hbody := definesClosed_remains.defineMethod m fun name => m.function.remains_infer name hbody
  class_ r n p is ms isInterface k _ hms := definesClosed_remains.class_ .bind r n p is ms isInterface k
    (.pure true) (fun hm r => .guarded (.bind hm fun _ => .pure true) r true) hms
  namespace_ _ n _ _ hbody := definesClosed_remains.inNamespace .bind definesClosed_remains.ensuring n
    (fun _ => .pure true) hbody

theorem Stmt.remains_analyze (s : Stmt) (where_ : NodeKind) : (s.analyze where_).Remains :=
  s.analyze_induction (b := true) analysisClosed_remains s.throughout_anyCode (fun _ _ => trivial) where_

/-- The value of a constant has been computed where it is declared. -/
theorem remains_declareConstant (name : QualifiedName) (e : Expr) : (declareConstant name e).Remains := by
  have hadd : ∀ {value : Option Value}, Computed value → ∀ type : Option TypeUnion,
      (Step.modify fun s => { s with symbols := s.symbols.addConstant ⟨name, type, value⟩ }).Remains := by
    rintro value ⟨s₀, ⟨made₀, hcourse₀⟩, hyields⟩ type s ⟨made, hcourse⟩
    exact ⟨made, hcourse.constant name type hcourse₀ hyields⟩
  refine .bindDelivers (Q := Computed) (.silently _) (fun _ hs _ hv => .of_value hs hv) fun value hv => ?_
  cases value with
  | some v => exact .bind (.pure _) fun type => hadd hv type
  | none => exact .bind (Remains.silently _) fun type => hadd hv type

theorem Stmt.remains_declare (s : Stmt) : s.declare.Remains :=
  s.declare_induction (definesClosed_remains.declares remains_declareConstant) s.throughout_anyCode

/-- The analysis of a file, with its declarations or without, stays among the states that occur. -/
theorem remains_fileRounds (program : Stmt) (collect : Bool) : (fileRounds program collect).Remains := by
  have hcollect : program.collect.Remains := definesClosed_remains.collect remains_declareConstant program
  cases collect with
  | true => exact .bind hcollect fun _ => program.remains_analyze .program
  | false => exact program.remains_analyze .program

end Rounds

end PhpFlow
