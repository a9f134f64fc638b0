import PhpFlow.Program
import PhpFlow.Proofs.Following
import PhpFlow.Proofs.SmallSteps

/-!
# Reaching definitions

On structured code the analysis is exact: the live writes of a variable are the writes that are the last
one on some path, and it may be unwritten if some path writes it nowhere. One pass over the body of a loop
is enough for that, because more rounds of it do nothing that one round could not have done.
-/
namespace PhpFlow

variable {x : String}

open Step (Quiet)
open scoped Computability

/-- Reading variables and doc comments makes no write. -/
theorem noteClosed_quiet : NoteClosed fun _ _ m => m.Quiet where
  pure := .pure
  bind := .bind
  guarded _ _ hm := .guarded hm
  get hf := .get hf.rest
  currentScope := .currentScope
  query hq := .query hq.orderly.faults
  mark name := .updateVar name (fun _ => rfl) fun _ => rfl
  comment name _ := .updateVar name (fun _ => rfl) fun _ => rfl
  waiting := .get fun _ => rfl
  setDoc _ := .modify {} fun _ => rfl

theorem Expr.quiet_read (e : Expr) (role : Role) : (e.read role).Quiet := by
  have hlook : LookClosed fun _ _ m => m.Quiet :=
    ⟨noteClosed_quiet.toAskClosed, fun name _ => .updateVar name (fun _ => rfl) fun _ => rfl⟩
  exact hlook.reads (b := true) e role

theorem quiet_keepDoc (text : String) (range : Range) : (keepDoc text range).Quiet :=
  noteClosed_quiet.keepDoc (b := true) text range

theorem leads_store (a : Expr) (ha : a.isPlainTarget) (u : Option TypeUnion) (v : Option Value) :
    (a.store u v).Does a.targetRoute.Leads := by
  cases a with
  | paren _ b => exact leads_store b ha u v
  | var r n =>
    have hn : n ≠ "this" := by simpa [Expr.isPlainTarget] using ha
    rw [Expr.store, Expr.write, if_neg hn]
    have hkeep : (keepValue v).Quiet := .get fun _ => rfl
    exact .after hkeep fun v => (Step.does_write n _ v (some r)).mono fun _ _ _ _ h => .write h
  | _ => cases ha

theorem leads_storeFrom (a b : Expr) (ha : a.isPlainTarget) (keepsValue : Bool) :
    (a.storeFrom b keepsValue).Does a.targetRoute.Leads := by
  have hstore {m : Step (Option Value)} (hm : m.Quiet) :
      (Step.query b.type >>= fun u => m >>= fun v => a.store u v).Does a.targetRoute.Leads :=
    .after (.query b.numericFaults_type) fun u => .after hm fun v => leads_store a ha u v
  cases keepsValue with
  | true => exact hstore (.query b.numericFaults_value)
  | false => exact hstore (.pure none)

theorem leads_storeUpdate (r : Range) (op : String) (a : Expr) (ha : a.isPlainTarget) (before : Bool) :
    (Expr.storeUpdate r op a before).Does a.targetRoute.Leads :=
  .after (.query a.numericFaults_value) fun v =>
    .after (.query (.ofExcept (numericOnly_updatedValue op v))) fun w =>
      .after (.query (Expr.numericFaults_type _)) fun u => leads_store a ha u w

/-- Nothing happens before a plain target is written to. -/
theorem follows_target (a : Expr) (ha : a.isPlainTarget) (k : NodeKind) :
    (a.analyze .target k).Follows .skip := by
  cases a with
  | var r n => exact .continue_
  | paren r b => exact follows_target b ha k
  | _ => cases ha

/-- The key of an element comes first on the path, but it makes no write. -/
theorem Step.Follows.element {k v es : Step Bool} {K V R : Route} (hv : v.Follows V) (hk : k.Follows K)
    (hsites : K.sites = 0) (hes : es.Follows R) :
    (Step.andThen v (Step.andThen k es)).Follows ((K.seq V).seq R) := by
  refine (hv.andThen (hk.andThen hes)).congr (by simp [Route.seq, hsites]) fun n x D => ?_
  change reachThrough (K.paths n * V.paths (n + K.sites) * R.paths (n + (K.sites + V.sites))) x D =
    reachThrough (V.paths n * (K.paths (n + V.sites) * R.paths (n + V.sites + K.sites))) x D
  simp only [Route.paths_eq_one hsites, hsites, one_mul, Nat.add_zero, Nat.zero_add]

mutual

/-- The analysis of an expression follows the paths through it. -/
theorem Expr.follows (e : Expr) (he : e.isStructured) (k : NodeKind) :
    (e.analyze .value k).Follows e.route := by
  cases e with
  | assign r a b byRef =>
    simp only [Expr.isStructured, Bool.and_eq_true] at he
    rw [Expr.analyze, Expr.route]
    refine .guarded ((b.follows he.2 _).andThen ?_)
    exact ((follows_target a he.1.2 _).andThen (.thenContinue (leads_storeFrom a b he.1.2 _))).skip_seq
  | augment r a op b =>
    simp only [Expr.isStructured, Bool.and_eq_true] at he
    rw [Expr.analyze, Expr.route]
    refine .guarded ((b.follows he.2 _).andThen ?_)
    exact ((follows_target a he.1.2 _).andThen (.thenContinue (leads_storeFrom a _ he.1.2 true))).skip_seq
  | update r op a before =>
    rw [Expr.isStructured] at he
    rw [Expr.analyze, Expr.route]
    refine .guarded ?_
    exact ((follows_target a he _).andThen (.thenContinue (leads_storeUpdate r op a he before))).skip_seq
  | binary r a op b =>
    simp only [Expr.isStructured, Bool.and_eq_true] at he
    rw [Expr.analyze, Expr.route]
    refine .guarded ((a.follows he.1 _).andThen (.before ?_ (noteClosed_quiet.check (b := true) _)))
    unfold isShortCircuitToken
    cases (Operator.ofToken? op).filter Operator.isShortCircuit with
    | none => exact b.follows he.2 _
    | some op => exact .detour (makesBranch_rightBranch op a) (b.follows he.2 _) .neutral
  | ternary r c b a =>
    simp only [Expr.isStructured, Bool.and_eq_true] at he
    rw [Expr.analyze, Expr.route]
    exact .guarded ((c.follows he.1.1 _).andThen
      (.choice c (follows_option b he.1.2 _) (a.follows he.2 _)))
  | unary r op a =>
    rw [Expr.isStructured] at he
    rw [Expr.analyze, Expr.route]
    exact (a.follows he _).before (.bind (.query (Expr.numericFaults_value _)) fun _ => .pure ())
  | paren r a | cast r t a =>
    rw [Expr.isStructured] at he
    rw [Expr.analyze, Expr.route]
    exact a.follows he _
  | subscript r b i =>
    simp only [Expr.isStructured, Bool.and_eq_true] at he
    rw [Expr.analyze, Expr.route]
    exact (b.follows he.1 _).andThen (follows_option i he.2 _)
  | array r es =>
    rw [Expr.isStructured] at he
    rw [Expr.analyze, Expr.route]
    exact follows_elements es he
  | call r f as | create r f as =>
    simp only [Expr.isStructured, Bool.and_eq_true] at he
    rw [Expr.analyze, Expr.route]
    exact (f.follows he.1 _).andThen (follows_all as he.2 _)
  | sequence r es =>
    rw [Expr.isStructured] at he
    rw [Expr.analyze, Expr.route]
    exact follows_all es he _
  | select r e arms =>
    simp only [Expr.isStructured, Bool.and_eq_true] at he
    rw [Expr.analyze, Expr.route]
    exact .after (.report _ _ _) fun _ => e.follows he.1 _
  | closure r ps b =>
    rw [Expr.analyze, Expr.route]
    exact .ofQuiet (.report _ _ _)
  | unknown r g t =>
    rw [Expr.analyze, Expr.route]
    exact .ofQuiet (.report _ _ _)
  | error r t =>
    rw [Expr.isStructured] at he
    cases he
  | var _ _ | integer _ _ | float _ _ | string _ _ | boolean _ _ | null _ | name _ _ =>
    rw [Expr.analyze, Expr.route]
    exact .continue_

theorem follows_option (e : Option Expr) (he : optionIsStructured e) (k : NodeKind) :
    (analyzeOption e k).Follows (optionRoute e) := by
  cases e with
  | none =>
    rw [analyzeOption, optionRoute]
    exact .continue_
  | some e =>
    rw [optionIsStructured] at he
    rw [analyzeOption, optionRoute]
    exact e.follows he k

theorem follows_all (es : List Expr) (hes : allAreStructured es) (k : NodeKind) :
    (analyzeAll es k).Follows (sequenceRoute es) := by
  cases es with
  | nil =>
    rw [analyzeAll, sequenceRoute]
    exact .continue_
  | cons e es =>
    simp only [allAreStructured, Bool.and_eq_true] at hes
    rw [analyzeAll, sequenceRoute]
    exact (e.follows hes.1 k).andThen (follows_all es hes.2 k)

theorem follows_elements (es : List Element) (hes : elementsAreStructured es) :
    (analyzeElements es).Follows (elementsRoute es) := by
  cases es with
  | nil =>
    rw [analyzeElements, elementsRoute]
    exact .continue_
  | cons e es =>
    obtain ⟨_, v, k, _, _⟩ := e
    simp only [elementsAreStructured, Bool.and_eq_true, beq_iff_eq] at hes
    rw [analyzeElements, elementsRoute]
    exact .element (v.follows hes.1.1.1 _) (follows_option k hes.1.1.2 _) hes.1.2
      (follows_elements es hes.2)

end

theorem Expr.follows_evaluate (e : Expr) (he : e.isStructured) (k : NodeKind) :
    (e.evaluate k).Follows e.route :=
  .after (e.quiet_read .value) fun _ => e.follows he k

theorem follows_evaluateAll (es : List Expr) (hes : allAreStructured es) (k : NodeKind) :
    (evaluateAll es k).Follows (sequenceRoute es) := by
  induction es with
  | nil =>
    rw [sequenceRoute]
    exact .continue_
  | cons e es ih =>
    simp only [allAreStructured, Bool.and_eq_true] at hes
    rw [sequenceRoute]
    exact (e.follows_evaluate hes.1 k).andThen (ih hes.2)

/-- Tests are structured, and there is no place in them that writes. -/
theorem allAreStructured_of_tests {es : List Expr} (hes : es.all Expr.isTest) :
    allAreStructured es ∧ (sequenceRoute es).sites = 0 := by
  induction es with
  | nil => exact ⟨by rw [allAreStructured], by rw [sequenceRoute]; rfl⟩
  | cons e es ih =>
    simp only [List.all_cons, Expr.isTest, Bool.and_eq_true, beq_iff_eq] at hes
    obtain ⟨hstruct, hsites⟩ := ih hes.2
    constructor
    · rw [allAreStructured, hes.1.1, hstruct]
      rfl
    · rw [sequenceRoute]
      change e.route.sites + (sequenceRoute es).sites = 0
      rw [hes.1.2, hsites]

namespace Step.Follows

variable {a b : Step Bool} {R S : Route}

/-- A loop whose condition writes nothing: one round that may be left out stands for any number. -/
theorem anyTimes (ha : a.Follows (R.alt .skip)) (hS : S.sites = 0) :
    a.Follows (R.seq S).anyTimes := by
  refine ha.congr (by simp [Route.anyTimes, Route.seq, Route.alt, Route.skip, hS]) fun n x D => ?_
  change reachThrough (R.paths n * S.paths (n + R.sites))∗ x D = reachThrough (R.paths n + 1) x D
  rw [Route.paths_eq_one hS, mul_one, reachThrough_kstar, reachThrough_add, reachThrough_one,
    Set.union_comm]

theorem atLeastOnce (ha : a.Follows R) : a.Follows R.atLeastOnce := by
  refine ha.congr rfl fun n x D => ?_
  change reachThrough (R.paths n * (R.paths n)∗) x D = reachThrough (R.paths n) x D
  rw [reachThrough_mul, reachThrough_kstar, Set.union_eq_left.mpr (reachThrough_twice _ x D)]

end Step.Follows

/-- Key and value of an element are written before the body of the loop. -/
theorem leads_bindElement (k : Option Expr) (v : Expr) (types : TypeUnion × TypeUnion)
    (hk : k.all Expr.isPlainTarget) (hv : v.isPlainTarget) :
    (bindElement k v types).Does (((k.map Expr.targetRoute).getD .skip).seq v.targetRoute).Leads := by
  cases k with
  | none =>
    refine (leads_store v hv (some types.2) none).mono fun l _ _ _ hl => ?_
    exact (Route.Leads.of_quiet (.refl l)).seq hl
  | some k =>
    exact (Step.Does.bind (leads_store k hk (some types.1) none) fun _ =>
      leads_store v hv (some types.2) none).mono fun _ _ _ _ ⟨_, _, _, hl, hl'⟩ => hl.seq hl'

theorem follows_foreachLoop (i v : Expr) (k : Option Expr) {body : Step Bool} {R : Route}
    (hi : i.isStructured) (hk : k.all Expr.isPlainTarget) (hv : v.isPlainTarget) (hb : body.Follows R) :
    (foreachLoop i k v body).Follows
      (i.route.seq ((((k.map Expr.targetRoute).getD .skip).seq v.targetRoute).seq R).anyTimes) := by
  refine (i.follows_evaluate hi _).andThen (.after (.query i.numericFaults_type) fun u => ?_)
  have hround : (do bindElement k v (elementTypes? u); body : Step Bool).Follows
      ((((k.map Expr.targetRoute).getD .skip).seq v.targetRoute).seq R) :=
    (Step.Moves.after (leads_bindElement k v _ hk hv) fun _ => hb).mono fun _ _ _ _ ⟨_, _, _, hl, hl'⟩ =>
      hl.seq hl'
  have hloop := (Step.Follows.detour (.current .onTrue) hround.inLoop .onFalse).anyTimes
    (S := .skip) rfl
  refine hloop.congr rfl fun n x D => ?_
  change reachThrough (_)∗ x D = reachThrough (_ * 1)∗ x D
  rw [mul_one]

theorem follows_caseValue (v : Option Expr) (hv : v.all Expr.isTest) :
    (evaluateAll v.toList .case).Follows (optionRoute v) := by
  cases v with
  | none =>
    rw [optionRoute]
    exact .continue_
  | some e =>
    simp only [Option.all_some, Expr.isTest, Bool.and_eq_true] at hv
    rw [optionRoute]
    exact ((e.follows_evaluate hv.1 _).andThen .continue_).seq_skip

mutual

/-- The analysis of a statement follows the paths through it. -/
theorem Stmt.follows (s : Stmt) (hs : s.isStructured) (k : NodeKind) : (s.analyze k).Follows s.route := by
  cases s with
  | comment r t =>
    rw [Stmt.analyze, Stmt.route]
    · exact .ofQuiet (quiet_keepDoc t r)
    all_goals simp
  | empty r =>
    rw [Stmt.analyze, Stmt.route]
    · exact .continue_
    all_goals simp
  | expression r e =>
    rw [Stmt.isStructured] at hs
    rw [Stmt.analyze, Stmt.route]
    exact e.follows_evaluate hs _
  | echo r es =>
    rw [Stmt.isStructured] at hs
    rw [Stmt.analyze, Stmt.route]
    exact follows_evaluateAll es hs _
  | program r ss | block r ss =>
    rw [Stmt.isStructured] at hs
    rw [Stmt.analyze, Stmt.route]
    exact .guarded (follows_statements ss hs _)
  | ifElse r c b eis e =>
    simp only [Stmt.isStructured, Bool.and_eq_true] at hs
    rw [Stmt.analyze, Stmt.route]
    exact .guarded ((c.follows_evaluate hs.1.1.1 _).andThen
      (.choice c (b.follows hs.1.1.2 _) (follows_elseIfs eis hs.1.2 (follows_else e hs.2))))
  | while_ r c b =>
    simp only [Stmt.isStructured, Expr.isTest, Bool.and_eq_true, beq_iff_eq] at hs
    rw [Stmt.analyze, Stmt.route]
    refine .guarded ((c.follows_evaluate hs.1.1 _).andThen (.anyTimes ?_ hs.1.2))
    exact .detour (.condition c .onTrue) (b.follows hs.2 _).inLoop .onFalse
  | doWhile r b c =>
    simp only [Stmt.isStructured, Bool.and_eq_true] at hs
    rw [Stmt.analyze, Stmt.route]
    exact .guarded (((b.follows hs.1 _).inLoop.andThen (c.follows_evaluate hs.2 _)).atLeastOnce)
  | for_ r is cs ns b =>
    simp only [Stmt.isStructured, Bool.and_eq_true] at hs
    obtain ⟨hcs, hsites⟩ := allAreStructured_of_tests hs.1.1.2
    rw [Stmt.analyze, Stmt.route]
    refine .guarded ((follows_evaluateAll is hs.1.1.1 _).andThen
      ((follows_evaluateAll cs hcs _).andThen (.anyTimes ?_ hsites)))
    exact .detour (makesBranch_forBranch cs)
      ((follows_statements b hs.2 _).andThen (follows_evaluateAll ns hs.1.2 _)).inLoop .onFalse
  | foreach r i v b k byRef =>
    simp only [Stmt.isStructured, Bool.and_eq_true] at hs
    obtain ⟨⟨⟨⟨-, hi⟩, hv⟩, hk⟩, hb⟩ := hs
    rw [Stmt.analyze, Stmt.route]
    exact .guarded (follows_foreachLoop i v k hi hk hv (b.follows hb _))
  | switch r e cs =>
    simp only [Stmt.isStructured, Bool.and_eq_true] at hs
    rw [Stmt.analyze, Stmt.route]
    refine .guarded ((e.follows_evaluate hs.1 _).andThen (.switchArms (follows_cases cs hs.2) ?_))
    intro hdefault hnil
    cases cs with
    | nil => cases hdefault
    | cons c cs =>
      obtain ⟨_, v, ss⟩ := c
      rw [caseRoutes] at hnil
      cases hnil
  | _ => simp [Stmt.isStructured] at hs

theorem follows_statements (ss : List Stmt) (hss : blockIsStructured ss) (k : NodeKind) :
    (analyzeStatements ss k).Follows (blockRoute ss) := by
  cases ss with
  | nil =>
    rw [analyzeStatements, blockRoute]
    exact .continue_
  | cons s ss =>
    simp only [blockIsStructured, Bool.and_eq_true] at hss
    rw [blockRoute]
    by_cases hcomment : ∃ r t, s = .comment r t
    · obtain ⟨r, t, rfl⟩ := hcomment
      rw [analyzeStatements]
      have hfirst : (Stmt.comment r t).route = .skip := by simp [Stmt.route]
      rw [hfirst]
      exact (Step.Moves.after (quiet_keepDoc t r).does fun _ => follows_statements ss hss.2 k).mono
        fun _ _ _ _ ⟨_, _, _, hq, hl⟩ => (Route.Leads.of_quiet hq).seq hl
    · rw [analyzeStatements]
      · exact .after (noteClosed_quiet.applyDoc _) fun _ => (s.follows hss.1 k).andThen (follows_statements ss hss.2 k)
      · exact fun r t he => hcomment ⟨r, t, he⟩

theorem follows_elseIfs (cs : List ElseIf) (hcs : elseIfsAreStructured cs) {last : Step Bool} {R : Route}
    (hlast : last.Follows R) : (analyzeElseIfs cs last).Follows (elseIfRoute cs R) := by
  cases cs with
  | nil =>
    rw [analyzeElseIfs, elseIfRoute]
    exact hlast
  | cons c cs =>
    obtain ⟨_, c, b⟩ := c
    simp only [elseIfsAreStructured, Bool.and_eq_true] at hcs
    rw [analyzeElseIfs, elseIfRoute]
    exact (c.follows_evaluate hcs.1.1 _).andThen
      (.choice c (b.follows hcs.1.2 _) (follows_elseIfs cs hcs.2 hlast))

theorem follows_else (e : Option Else) (he : elseIsStructured e) :
    (analyzeElse e).Follows (elseRoute e) := by
  cases e with
  | none =>
    rw [analyzeElse, elseRoute]
    exact .continue_
  | some e =>
    obtain ⟨_, b⟩ := e
    rw [elseIsStructured] at he
    rw [analyzeElse, elseRoute]
    exact b.follows he _

theorem follows_cases (cs : List Case) (hcs : casesAreStructured cs) :
    List.Forall₂ Step.Follows (caseArms cs) (caseRoutes cs) := by
  cases cs with
  | nil =>
    rw [caseArms, caseRoutes]
    exact .nil
  | cons c cs =>
    obtain ⟨_, v, ss⟩ := c
    simp only [casesAreStructured, Bool.and_eq_true] at hcs
    rw [caseArms, caseRoutes]
    refine .cons (.andThen ?_ (follows_statements ss hcs.1.2 _)) (follows_cases cs hcs.2)
    exact follows_caseValue v hcs.1.1

end

def Scope.fresh : Scope := ⟨0, none, .neutral, []⟩

theorem State.working_new (symbols : SymbolTable) (config : Config) (file : Option String) (sink : Sink) :
    (State.new symbols config file sink).Working 0 .fresh :=
  .root rfl rfl

/-- What a program does in the scope of its file, the analysis of the file shows. -/
theorem analyzeFile_acts {program : Stmt} {Φ : Local → Bool → Local → Prop}
    (h : (program.analyze .program).Acts Φ) (symbols : SymbolTable) (config : Config) (sink : Sink)
    (file : Option String) :
    (∃ a root, analyzeFile program symbols config sink file false = .ok a ∧ a.fileScope? = some root ∧
      Φ ((State.new symbols config file sink).localView .fresh) a.completed (a.state.localView root)) ∨
    ∃ e, analyzeFile program symbols config sink file false = .error e ∧ e.isNumeric := by
  have hstart := State.working_new symbols config file sink
  rcases (h _ 0 .fresh hstart).cases with ⟨ok, t, ht, hu, root, hroot, hΦ⟩ | ⟨e, t, ht, he, -⟩
  · refine .inl ⟨⟨ok, t⟩, root, ?_, ?_, hΦ⟩
    · simp [analyzeFile, ht]
    · have hscopes : t.fileFrame.scopes = [0] := congrArg Prod.snd hu.stack
      simp [Analysis.fileScope?, hscopes, hroot]
  · refine .inr ⟨e, ?_, he⟩
    simp [analyzeFile, ht]

theorem Scope.numbered_fresh (n : Nat) : Scope.fresh.Numbered n := by
  have htrail : ∀ x, Scope.fresh.trail x = .empty := fun _ => rfl
  refine ⟨fun x => ?_, fun x => ?_, fun x => ?_⟩ <;> simp [htrail, Trail.empty, Trail.Distinguished]

/-- So it is for a program that goes on to its end. -/
theorem analyzeFile_moves {program : Stmt} {E : Effect} (h : (program.analyze .program).Moves E)
    (symbols : SymbolTable) (config : Config) (sink : Sink) (file : Option String) :
    (∃ a root, analyzeFile program symbols config sink file false = .ok a ∧ a.completed = true ∧
      a.fileScope? = some root ∧
      ((State.new symbols config file sink).localView .fresh).Continues (a.state.localView root) ∧
      E ((State.new symbols config file sink).localView .fresh) (a.state.localView root)) ∨
    ∃ e, analyzeFile program symbols config sink file false = .error e ∧ e.isNumeric := by
  refine (analyzeFile_acts h symbols config sink file).imp_left ?_
  rintro ⟨a, root, ha, hroot, hok, hmoves⟩
  exact ⟨a, root, ha, hok, hroot, hmoves (Scope.numbered_fresh _)⟩

theorem Scope.reaching_fresh (x : String) : Scope.fresh.reaching x = {none} := by
  ext d
  simp [Scope.reaching, Trail.reaching, show Scope.fresh.trail x = .empty from rfl, Trail.empty]

def Scope.liveEvents (sc : Scope) (x : String) : Set WriteEvent :=
  {e | ∃ v w, sc.var? x = some v ∧ w ∈ v.live ∧ e = ⟨x, w.id, w.range⟩}

/-- The variable is unknown, has no live write, or is partial. -/
def Scope.MayBeUnwritten (sc : Scope) (x : String) : Prop :=
  ∀ v, sc.var? x = some v → v.live = [] ∨ v.isPartial

theorem Scope.mem_reaching_some {sc : Scope} {e : WriteEvent} :
    some e ∈ sc.reaching x ↔ e ∈ sc.liveEvents x := by
  cases hv : sc.var? x with
  | none => simp [reaching, Trail.reaching, liveEvents, trail, hv, Trail.empty]
  | some v => simp [reaching, Trail.reaching, liveEvents, trail, hv, Variable.trail]

theorem Scope.mem_reaching_none {sc : Scope} : none ∈ sc.reaching x ↔ sc.MayBeUnwritten x := by
  cases hv : sc.var? x with
  | none => simp [reaching, Trail.reaching, MayBeUnwritten, trail, hv, Trail.empty]
  | some v => simp [reaching, Trail.reaching, MayBeUnwritten, trail, hv, Variable.trail, or_comm]

/-- From a scope without writes the last write is what the path says. -/
theorem mem_reachThrough_fresh {P : Language WriteEvent} {d : Option WriteEvent} :
    d ∈ reachThrough P x (Scope.fresh.reaching x) ↔ ∃ p ∈ P, lastWrite x p = d := by
  rw [Scope.reaching_fresh]
  simp [reachThrough, eq_comm]

/-- Structured code is analysed exactly. Unless a number is too large, the analysis completes; the live
writes of each variable are the last writes to it on all paths, and it counts as absent, unwritten or partial
just if some path does not write to it. -/
theorem live_writes_are_last_on_paths (r : Range) (ss : List Stmt) (symbols : SymbolTable)
    (config : Config) (sink : Sink) (file : Option String) (hss : blockIsStructured ss) :
    (∃ a root, analyzeFile (.program r ss) symbols config sink file false = .ok a ∧
      a.completed = true ∧ a.fileScope? = some root ∧ ∀ x,
        root.liveEvents x = {e | ∃ p ∈ (blockRoute ss).paths 0, lastWrite x p = some e} ∧
        (root.MayBeUnwritten x ↔ ∃ p ∈ (blockRoute ss).paths 0, lastWrite x p = none)) ∨
    ∃ e, analyzeFile (.program r ss) symbols config sink file false = .error e ∧ e.isNumeric := by
  have hprogram : (Stmt.program r ss).isStructured := by
    rw [Stmt.isStructured]
    exact hss
  have hfollow := Stmt.follows (.program r ss) hprogram .program
  rw [Stmt.route] at hfollow
  refine (analyzeFile_moves hfollow symbols config sink file).imp_left ?_
  rintro ⟨a, root, ha, hok, hroot, -, -, hlead⟩
  have hreach : ∀ x, root.reaching x =
      reachThrough ((blockRoute ss).paths 0) x (Scope.fresh.reaching x) := hlead
  refine ⟨a, root, ha, hok, hroot, fun x => ⟨?_, ?_⟩⟩
  · ext e
    rw [← Scope.mem_reaching_some, hreach x]
    exact mem_reachThrough_fresh
  · rw [← Scope.mem_reaching_none, hreach x]
    exact mem_reachThrough_fresh

/-- The code `while ($go) { $x = 1; }`. -/
def repeatedAssignment : List Stmt :=
  [.while_ .zero (.var .zero "go") (.block .zero
    [.expression .zero (.assign .zero (.var .zero "x") (.integer .zero 1) false)])]

/-- After the loop the variable may have been written, and may not. -/
theorem repeatedAssignment_live_writes : blockIsStructured repeatedAssignment ∧
    ∃ a root, analyzeFile (.program .zero repeatedAssignment) {} {} .discarding none false = .ok a ∧
      a.fileScope? = some root ∧ root.MayBeUnwritten "x" ∧
      ⟨"x", 0, some .zero⟩ ∈ root.liveEvents "x" := by
  have hs : blockIsStructured repeatedAssignment := by decide
  have hok : (analyzeFile (.program .zero repeatedAssignment) {} {} .discarding none false).isOk := by
    decide +kernel
  have hpaths : (blockRoute repeatedAssignment).paths 0 = ({[⟨"x", 0, some .zero⟩]})∗ := by
    simp [repeatedAssignment, blockRoute, Stmt.route, Expr.route, Expr.targetRoute, Route.seq,
      Route.skip, Route.anyTimes, Route.write]
  rcases live_writes_are_last_on_paths .zero repeatedAssignment {} {} .discarding none hs with
    ⟨a, root, ha, -, hroot, h⟩ | ⟨e, he, -⟩
  · rw [hpaths] at h
    refine ⟨hs, a, root, ha, hroot, (h "x").2.mpr ⟨[], Language.nil_mem_kstar _, rfl⟩, ?_⟩
    rw [(h "x").1]
    exact ⟨_, ⟨[[⟨"x", 0, some .zero⟩]], rfl, fun _ hp => List.mem_singleton.mp hp⟩, rfl⟩
  · rw [he] at hok
    cases hok

end PhpFlow
