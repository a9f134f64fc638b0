import PhpFlow.Proofs.Forking

/-!
# Properties of constructs

Many properties of the two rounds pass from the parts of a construct to the construct. Each round comes with
a principle of induction for them: what has to be shown is listed once, as the fields of a structure, and the
walk through the syntax is made here.
-/
namespace PhpFlow

open List

structure NodeTest where
  expr : Expr → Bool := fun _ => true
  stmt : Stmt → Bool := fun _ => true

section Syntax

mutual

/-- The test holds of an expression and of everything in it. -/
def Expr.throughout (T : NodeTest) (e : Expr) : Bool :=
  T.expr e && match e with
    | .array _ es => elementsThroughout T es
    | .assign _ a b _ | .augment _ a _ b | .binary _ a _ b => a.throughout T && b.throughout T
    | .unary _ _ a | .update _ _ a _ | .paren _ a | .cast _ _ a => a.throughout T
    | .ternary _ c b a => c.throughout T && optionThroughout T b && a.throughout T
    | .call _ f as | .create _ f as => f.throughout T && exprsThroughout T as
    | .subscript _ b i => b.throughout T && optionThroughout T i
    | .sequence _ es => exprsThroughout T es
    | .select _ e arms => e.throughout T && blockThroughout T arms
    | .closure _ ps b => parametersThroughout T ps && bodyThroughout T b
    | _ => true

def optionThroughout (T : NodeTest) : Option Expr → Bool
  | none => true
  | some e => e.throughout T

def exprsThroughout (T : NodeTest) : List Expr → Bool
  | [] => true
  | e :: es => e.throughout T && exprsThroughout T es

def elementsThroughout (T : NodeTest) : List Element → Bool
  | [] => true
  | ⟨_, v, k, _, _⟩ :: es => v.throughout T && optionThroughout T k && elementsThroughout T es

def parametersThroughout (T : NodeTest) : List Parameter → Bool
  | [] => true
  | ⟨_, _, _, d, _, _⟩ :: ps => optionThroughout T d && parametersThroughout T ps

def elseIfsThroughout (T : NodeTest) : List ElseIf → Bool
  | [] => true
  | ⟨_, c, b⟩ :: cs => c.throughout T && b.throughout T && elseIfsThroughout T cs

def elseThroughout (T : NodeTest) : Option Else → Bool
  | none => true
  | some ⟨_, b⟩ => b.throughout T

def casesThroughout (T : NodeTest) : List Case → Bool
  | [] => true
  | ⟨_, v, ss⟩ :: cs => optionThroughout T v && blockThroughout T ss && casesThroughout T cs

def catchesThroughout (T : NodeTest) : List Catch → Bool
  | [] => true
  | ⟨_, _, b, _⟩ :: cs => b.throughout T && catchesThroughout T cs

def constantsThroughout (T : NodeTest) : List Constant → Bool
  | [] => true
  | ⟨_, _, v⟩ :: cs => v.throughout T && constantsThroughout T cs

def Function.throughout (T : NodeTest) : Function → Bool
  | ⟨_, _, ps, b, _, _⟩ => parametersThroughout T ps && bodyThroughout T b

def methodsThroughout (T : NodeTest) : List Method → Bool
  | [] => true
  | ⟨f, _⟩ :: ms => f.throughout T && methodsThroughout T ms

def Clause.throughout (T : NodeTest) : Clause → Bool
  | .element ⟨_, v, k, _, _⟩ => v.throughout T && optionThroughout T k
  | .parameter ⟨_, _, _, d, _, _⟩ => optionThroughout T d
  | .elseIf ⟨_, c, b⟩ => c.throughout T && b.throughout T
  | .else_ ⟨_, b⟩ | .catch_ ⟨_, _, b, _⟩ => b.throughout T
  | .case ⟨_, v, ss⟩ => optionThroughout T v && blockThroughout T ss
  | .use _ => true
  | .constant ⟨_, _, v⟩ => v.throughout T

def Stmt.throughout (T : NodeTest) (s : Stmt) : Bool :=
  T.stmt s && match s with
    | .program _ ss | .block _ ss => blockThroughout T ss
    | .expression _ e | .bare e => e.throughout T
    | .echo _ es => exprsThroughout T es
    | .return_ _ e => optionThroughout T e
    | .ifElse _ c b eis e =>
      c.throughout T && b.throughout T && elseIfsThroughout T eis && elseThroughout T e
    | .while_ _ c b | .doWhile _ b c => c.throughout T && b.throughout T
    | .for_ _ is cs ns b =>
      exprsThroughout T is && exprsThroughout T cs && exprsThroughout T ns && blockThroughout T b
    | .foreach _ i v b k _ => i.throughout T && v.throughout T && b.throughout T && optionThroughout T k
    | .switch _ e cs => e.throughout T && casesThroughout T cs
    | .try_ _ b cs f => b.throughout T && catchesThroughout T cs && bodyThroughout T f
    | .function f => f.throughout T
    | .method ⟨f, _⟩ => f.throughout T
    | .class_ _ _ _ _ ms _ => methodsThroughout T ms
    | .namespace_ _ _ b => bodyThroughout T b
    | .const _ cs => constantsThroughout T cs
    | .clause c => c.throughout T
    | _ => true

def bodyThroughout (T : NodeTest) : Option Stmt → Bool
  | none => true
  | some s => s.throughout T

def blockThroughout (T : NodeTest) : List Stmt → Bool
  | [] => true
  | s :: ss => s.throughout T && blockThroughout T ss

end

mutual

/-- The functions defined where the analysis of a statement follows its code. -/
def Stmt.definitions : Stmt → List Function
  | .program _ ss | .block _ ss | .for_ _ _ _ _ ss => blockDefinitions ss
  | .ifElse _ _ b eis e => b.definitions ++ (elseIfDefinitions eis ++ elseDefinitions e)
  | .while_ _ _ b | .doWhile _ b _ | .foreach _ _ _ b _ _ => b.definitions
  | .switch _ _ cs => caseDefinitions cs
  | .try_ _ b cs f => b.definitions ++ (catchDefinitions cs ++ bodyDefinitions f)
  | .function f => f :: f.definitions
  | .method ⟨f, _⟩ => f.definitions
  | .class_ _ _ _ _ ms _ => methodDefinitions ms
  | .namespace_ _ _ b => bodyDefinitions b
  | .clause c => c.definitions
  | .comment _ _ | .expression _ _ | .echo _ _ | .return_ _ _ | .break_ _ | .continue_ _ | .empty _
  | .use _ _ | .const _ _ | .global _ _ | .unknown _ _ _ | .bare _ => []

def blockDefinitions : List Stmt → List Function
  | [] => []
  | s :: ss => s.definitions ++ blockDefinitions ss

def bodyDefinitions : Option Stmt → List Function
  | none => []
  | some s => s.definitions

def elseIfDefinitions : List ElseIf → List Function
  | [] => []
  | ⟨_, _, b⟩ :: cs => b.definitions ++ elseIfDefinitions cs

def elseDefinitions : Option Else → List Function
  | none => []
  | some ⟨_, b⟩ => b.definitions

def caseDefinitions : List Case → List Function
  | [] => []
  | ⟨_, _, ss⟩ :: cs => blockDefinitions ss ++ caseDefinitions cs

def catchDefinitions : List Catch → List Function
  | [] => []
  | ⟨_, _, b, _⟩ :: cs => b.definitions ++ catchDefinitions cs

def Function.definitions : Function → List Function
  | ⟨_, _, _, b, _, _⟩ => bodyDefinitions b

def methodDefinitions : List Method → List Function
  | [] => []
  | ⟨f, _⟩ :: ms => f.definitions ++ methodDefinitions ms

def Clause.definitions : Clause → List Function
  | .elseIf ⟨_, _, b⟩ | .else_ ⟨_, b⟩ | .catch_ ⟨_, _, b, _⟩ => b.definitions
  | .case ⟨_, _, ss⟩ => blockDefinitions ss
  | .element _ | .parameter _ | .use _ | .constant _ => []

end

theorem Stmt.throughout_method (T : NodeTest) (m : Method) :
    (Stmt.method m).throughout T = (T.stmt (.method m) && m.function.throughout T) := by
  cases m
  rfl

section Kinds

/-! A test that holds of all nodes of certain kinds holds throughout code of these kinds. Comments are no part
of the tree below a node, so it must hold of them in any case. -/

structure NodeTest.Takes (T : NodeTest) (K : NodeKind → Prop) : Prop where
  expr : ∀ e : Expr, K e.outline.kind → T.expr e = true
  stmt : ∀ s : Stmt, (s.outline.kind ≠ .comment → K s.outline.kind) → T.stmt s = true

variable {T : NodeTest} {K : NodeKind → Prop}

mutual

theorem Expr.throughout_of_passes (hT : T.Takes K) (e : Expr) (he : e.outline.Passes K) :
    e.throughout T = true := by
  have hroot := hT.expr e (he.kind e.outline_kind_ne_comment)
  cases e <;> simp [Expr.outline] at he <;> simp only [Expr.throughout, hroot, Bool.true_and, Bool.and_eq_true]
  case array r es => exact elementsThroughout_of_passes hT es he.2
  case assign r a b byRef | augment r a op b | binary r a op b =>
    exact ⟨a.throughout_of_passes hT he.2.1, b.throughout_of_passes hT he.2.2⟩
  case unary r op a | update r op a before | paren r a | cast r t a => exact a.throughout_of_passes hT he.2
  case ternary r c b a =>
    exact ⟨⟨c.throughout_of_passes hT he.2.1, optionThroughout_of_passes hT b he.2.2.1⟩,
      a.throughout_of_passes hT he.2.2.2⟩
  case call r f as | create r f as =>
    exact ⟨f.throughout_of_passes hT he.2.1, exprsThroughout_of_passes hT as he.2.2⟩
  case subscript r b i => exact ⟨b.throughout_of_passes hT he.2.1, optionThroughout_of_passes hT i he.2.2⟩
  case sequence r es => exact exprsThroughout_of_passes hT es he.2
  case select r e arms => exact ⟨e.throughout_of_passes hT he.2.1, blockThroughout_of_passes hT arms he.2.2⟩
  case closure r ps b =>
    exact ⟨parametersThroughout_of_passes hT ps he.2.1, bodyThroughout_of_passes hT b he.2.2⟩

theorem optionThroughout_of_passes (hT : T.Takes K) (e : Option Expr)
    (he : ∀ x, e = some x → x.outline.Passes K) : optionThroughout T e = true := by
  cases e with
  | none => rfl
  | some e => exact e.throughout_of_passes hT (he e rfl)

theorem exprsThroughout_of_passes (hT : T.Takes K) (es : List Expr) (hes : ∀ e ∈ es, e.outline.Passes K) :
    exprsThroughout T es = true := by
  cases es with
  | nil => rfl
  | cons e es =>
    rw [forall_mem_cons] at hes
    simp [exprsThroughout, e.throughout_of_passes hT hes.1, exprsThroughout_of_passes hT es hes.2]

theorem elementsThroughout_of_passes (hT : T.Takes K) (es : List Element) (hes : ∀ e ∈ es, e.outline.Passes K) :
    elementsThroughout T es = true := by
  match es with
  | [] => rfl
  | ⟨_, v, k, _, _⟩ :: es =>
    simp [Element.outline] at hes
    simp [elementsThroughout, v.throughout_of_passes hT hes.1.2.1, optionThroughout_of_passes hT k hes.1.2.2,
      elementsThroughout_of_passes hT es hes.2]

theorem parametersThroughout_of_passes (hT : T.Takes K) (ps : List Parameter)
    (hps : ∀ p ∈ ps, p.outline.Passes K) : parametersThroughout T ps = true := by
  match ps with
  | [] => rfl
  | ⟨_, _, _, d, _, _⟩ :: ps =>
    simp [Parameter.outline] at hps
    simp [parametersThroughout, optionThroughout_of_passes hT d hps.1.2,
      parametersThroughout_of_passes hT ps hps.2]

theorem elseIfsThroughout_of_passes (hT : T.Takes K) (cs : List ElseIf) (hcs : ∀ c ∈ cs, c.outline.Passes K) :
    elseIfsThroughout T cs = true := by
  match cs with
  | [] => rfl
  | ⟨_, c, b⟩ :: cs =>
    simp [ElseIf.outline] at hcs
    simp [elseIfsThroughout, c.throughout_of_passes hT hcs.1.2.1, b.throughout_of_passes hT hcs.1.2.2,
      elseIfsThroughout_of_passes hT cs hcs.2]

theorem elseThroughout_of_passes (hT : T.Takes K) (e : Option Else)
    (he : ∀ c, e = some c → c.outline.Passes K) : elseThroughout T e = true := by
  match e with
  | none => rfl
  | some ⟨_, b⟩ =>
    simp [Else.outline] at he
    exact b.throughout_of_passes hT he.2

theorem casesThroughout_of_passes (hT : T.Takes K) (cs : List Case) (hcs : ∀ c ∈ cs, c.outline.Passes K) :
    casesThroughout T cs = true := by
  match cs with
  | [] => rfl
  | ⟨_, v, ss⟩ :: cs =>
    simp [Case.outline] at hcs
    simp [casesThroughout, optionThroughout_of_passes hT v hcs.1.2.1, blockThroughout_of_passes hT ss hcs.1.2.2,
      casesThroughout_of_passes hT cs hcs.2]

theorem catchesThroughout_of_passes (hT : T.Takes K) (cs : List Catch) (hcs : ∀ c ∈ cs, c.outline.Passes K) :
    catchesThroughout T cs = true := by
  match cs with
  | [] => rfl
  | ⟨_, _, b, _⟩ :: cs =>
    simp [Catch.outline] at hcs
    simp [catchesThroughout, b.throughout_of_passes hT hcs.1.2.1, catchesThroughout_of_passes hT cs hcs.2]

theorem constantsThroughout_of_passes (hT : T.Takes K) (cs : List Constant)
    (hcs : ∀ c ∈ cs, c.outline.Passes K) : constantsThroughout T cs = true := by
  match cs with
  | [] => rfl
  | ⟨_, _, v⟩ :: cs =>
    simp [Constant.outline] at hcs
    simp [constantsThroughout, v.throughout_of_passes hT hcs.1.2, constantsThroughout_of_passes hT cs hcs.2]

theorem Function.throughout_of_passes (hT : T.Takes K) (f : Function)
    (hf : ∀ p ∈ f.fields, ∀ o ∈ p.2.parts, o.Passes K) : f.throughout T = true := by
  obtain ⟨_, _, ps, b, _, _⟩ := f
  simp [Function.fields] at hf
  simp [Function.throughout, parametersThroughout_of_passes hT ps hf.1, bodyThroughout_of_passes hT b hf.2]

theorem methodsThroughout_of_passes (hT : T.Takes K) (ms : List Method) (hms : ∀ m ∈ ms, m.outline.Passes K) :
    methodsThroughout T ms = true := by
  match ms with
  | [] => rfl
  | ⟨f, _⟩ :: ms =>
    obtain ⟨hf, hms⟩ := forall_mem_cons.mp hms
    rw [Method.outline, Outline.passes_iff, forall_mem_append] at hf
    simp [methodsThroughout, f.throughout_of_passes hT (hf (by decide)).2.1,
      methodsThroughout_of_passes hT ms hms]

theorem Clause.throughout_of_passes (hT : T.Takes K) (c : Clause) (hc : c.outline.Passes K) :
    c.throughout T = true := by
  match c with
  | .element ⟨_, v, k, _, _⟩ =>
    simp [Clause.outline, Element.outline] at hc
    simp [Clause.throughout, v.throughout_of_passes hT hc.2.1, optionThroughout_of_passes hT k hc.2.2]
  | .parameter ⟨_, _, _, d, _, _⟩ =>
    simp [Clause.outline, Parameter.outline] at hc
    exact optionThroughout_of_passes hT d hc.2
  | .elseIf ⟨_, c, b⟩ =>
    simp [Clause.outline, ElseIf.outline] at hc
    simp [Clause.throughout, c.throughout_of_passes hT hc.2.1, b.throughout_of_passes hT hc.2.2]
  | .else_ ⟨_, b⟩ =>
    simp [Clause.outline, Else.outline] at hc
    exact b.throughout_of_passes hT hc.2
  | .case ⟨_, v, ss⟩ =>
    simp [Clause.outline, Case.outline] at hc
    simp [Clause.throughout, optionThroughout_of_passes hT v hc.2.1, blockThroughout_of_passes hT ss hc.2.2]
  | .catch_ ⟨_, _, b, v⟩ =>
    simp [Clause.outline, Catch.outline] at hc
    exact b.throughout_of_passes hT hc.2.1
  | .use _ => rfl
  | .constant ⟨_, _, v⟩ =>
    simp [Clause.outline, Constant.outline] at hc
    exact v.throughout_of_passes hT hc.2

theorem Stmt.throughout_of_passes (hT : T.Takes K) (s : Stmt) (hs : s.outline.Passes K) :
    s.throughout T = true := by
  have hroot := hT.stmt s hs.kind
  cases s <;> simp only [Stmt.throughout, Stmt.throughout_method, hroot, Bool.true_and, Bool.and_eq_true]
  case bare e =>
    rw [Stmt.outline] at hs
    exact e.throughout_of_passes hT hs
  case clause c =>
    rw [Stmt.outline] at hs
    exact c.throughout_of_passes hT hs
  case method m =>
    obtain ⟨f, _⟩ := m
    rw [Stmt.outline, Method.outline, Outline.passes_iff, forall_mem_append] at hs
    exact f.throughout_of_passes hT (hs (by decide)).2.1
  case function f =>
    rw [Stmt.outline, Outline.passes_iff] at hs
    exact f.throughout_of_passes hT (hs (by decide)).2
  all_goals simp [Stmt.outline] at hs
  case program r ss | block r ss => exact blockThroughout_of_passes hT ss hs.2
  case expression r e => exact e.throughout_of_passes hT hs.2
  case echo r es => exact exprsThroughout_of_passes hT es hs.2
  case return_ r e => exact optionThroughout_of_passes hT e hs.2
  case ifElse r c b eis e =>
    obtain ⟨-, hc, hb, heis, he⟩ := hs
    exact ⟨⟨⟨c.throughout_of_passes hT hc, b.throughout_of_passes hT hb⟩,
      elseIfsThroughout_of_passes hT eis heis⟩, elseThroughout_of_passes hT e he⟩
  case while_ r c b => exact ⟨c.throughout_of_passes hT hs.2.1, b.throughout_of_passes hT hs.2.2⟩
  case doWhile r b c => exact ⟨c.throughout_of_passes hT hs.2.2, b.throughout_of_passes hT hs.2.1⟩
  case for_ r is cs ns b =>
    obtain ⟨-, his, hcs, hns, hb⟩ := hs
    exact ⟨⟨⟨exprsThroughout_of_passes hT is his, exprsThroughout_of_passes hT cs hcs⟩,
      exprsThroughout_of_passes hT ns hns⟩, blockThroughout_of_passes hT b hb⟩
  case foreach r i v b k byRef =>
    obtain ⟨-, hi, hv, hb, hk⟩ := hs
    exact ⟨⟨⟨i.throughout_of_passes hT hi, v.throughout_of_passes hT hv⟩, b.throughout_of_passes hT hb⟩,
      optionThroughout_of_passes hT k hk⟩
  case switch r e cs => exact ⟨e.throughout_of_passes hT hs.2.1, casesThroughout_of_passes hT cs hs.2.2⟩
  case try_ r b cs f =>
    obtain ⟨-, hb, hcs, hf⟩ := hs
    exact ⟨⟨b.throughout_of_passes hT hb, catchesThroughout_of_passes hT cs hcs⟩,
      bodyThroughout_of_passes hT f hf⟩
  case class_ r n p is ms isInterface => exact methodsThroughout_of_passes hT ms hs.2
  case namespace_ r n b => exact bodyThroughout_of_passes hT b hs.2
  case const r cs => exact constantsThroughout_of_passes hT cs hs.2

theorem bodyThroughout_of_passes (hT : T.Takes K) (s : Option Stmt)
    (hs : ∀ b, s = some b → b.outline.Passes K) : bodyThroughout T s = true := by
  cases s with
  | none => rfl
  | some s => exact s.throughout_of_passes hT (hs s rfl)

theorem blockThroughout_of_passes (hT : T.Takes K) (ss : List Stmt) (hss : ∀ s ∈ ss, s.outline.Passes K) :
    blockThroughout T ss = true := by
  cases ss with
  | nil => rfl
  | cons s ss =>
    rw [forall_mem_cons] at hss
    simp [blockThroughout, s.throughout_of_passes hT hss.1, blockThroughout_of_passes hT ss hss.2]

end

end Kinds

def anyCode : NodeTest where

theorem Expr.throughout_anyCode (e : Expr) : e.throughout anyCode = true :=
  e.throughout_of_passes (K := fun _ => True) ⟨fun _ _ => rfl, fun _ _ => rfl⟩ fun _ _ _ => trivial

theorem Stmt.throughout_anyCode (s : Stmt) : s.throughout anyCode = true :=
  s.throughout_of_passes (K := fun _ => True) ⟨fun _ _ => rfl, fun _ _ => rfl⟩ fun _ _ _ => trivial

end Syntax

section Declaring

/-- A property of entering declarations, together with the definitions that the analysis will follow, that
passes from the parts of a construct to the construct. -/
structure DeclareClosed (T : NodeTest) (P : Step Unit → List Function → Prop) : Prop where
  nothing : P (pure ()) []
  sequence : ∀ {a b : Step Unit} {fs gs : List Function}, P a fs → P b gs → P (do a; b) (fs ++ gs)
  /-- Code that the analysis does not follow is searched for declarations all the same. -/
  unfollowed : ∀ {m : Step Unit} {fs : List Function}, P m fs → P m []
  definition : ∀ r f as, T.expr (.call r f as) = true → P (declareDefinition f as) []
  function : ∀ f, T.stmt (.function f) = true → P f.declareBody f.definitions →
    P (Stmt.function f).declare (f :: f.definitions)
  class_ : ∀ r n p is ms isInterface, T.stmt (.class_ r n p is ms isInterface) = true →
    (∀ m ∈ ms, P m.function.declareBody m.function.definitions) →
    P (Stmt.class_ r n p is ms isInterface).declare (methodDefinitions ms)
  namespace_ : ∀ r n b, T.stmt (.namespace_ r n b) = true →
    (∀ m ∈ declaredBody b, P m (bodyDefinitions b)) →
    P (declareNamespace n (declaredBody b)) (bodyDefinitions b)
  use : ∀ r cs, T.stmt (.use r cs) = true → P (Step.modify (registerUses cs)) []
  const : ∀ r cs, T.stmt (.const r cs) = true → P (declareConstants cs) []

variable {T : NodeTest} {P : Step Unit → List Function → Prop}

theorem DeclareClosed.before (h : DeclareClosed T P) {a b : Step Unit} {fs : List Function} (ha : P a [])
    (hb : P b fs) : P (do a; b) fs :=
  h.sequence ha hb

theorem DeclareClosed.after (h : DeclareClosed T P) {a b : Step Unit} {fs : List Function} (ha : P a fs)
    (hb : P b []) : P (do a; b) fs := by
  simpa using h.sequence ha hb

mutual

theorem Expr.declare_induction (h : DeclareClosed T P) (e : Expr) (he : e.throughout T = true) :
    P e.declare [] := by
  cases e <;> simp only [Expr.throughout, Bool.and_eq_true] at he
  case array r es =>
    exact declareElements_induction h es he.2
  case assign r a b byRef | augment r a op b | binary r a op b =>
    exact h.before (a.declare_induction h he.2.1) (b.declare_induction h he.2.2)
  case unary r op a | update r op a before | paren r a | cast r t a =>
    exact a.declare_induction h he.2
  case ternary r c b a =>
    exact h.before (c.declare_induction h he.2.1.1)
      (h.before (declareOption_induction h b he.2.1.2) (a.declare_induction h he.2.2))
  case call r f as =>
    exact h.before (h.definition r f as he.1)
      (h.before (f.declare_induction h he.2.1) (declareAll_induction h as he.2.2))
  case create r c as =>
    exact h.before (c.declare_induction h he.2.1) (declareAll_induction h as he.2.2)
  case subscript r b i =>
    exact h.before (b.declare_induction h he.2.1) (declareOption_induction h i he.2.2)
  case sequence r es =>
    exact declareAll_induction h es he.2
  case select r e arms =>
    exact h.before (e.declare_induction h he.2.1)
      (h.unfollowed (declareStatements_induction h arms he.2.2))
  case closure r ps b =>
    exact h.before (declareDefaults_induction h ps he.2.1)
      (h.unfollowed (declareBody_induction h b he.2.2))
  case var _ _ | integer _ _ | float _ _ | string _ _ | boolean _ _ | null _ | name _ _ | unknown _ _ _
    | error _ _ => exact h.nothing

theorem declareOption_induction (h : DeclareClosed T P) (e : Option Expr)
    (he : optionThroughout T e = true) : P (declareOption e) [] := by
  cases e with
  | none => exact h.nothing
  | some e =>
    exact e.declare_induction h he

theorem declareAll_induction (h : DeclareClosed T P) (es : List Expr)
    (hes : exprsThroughout T es = true) : P (declareAll es) [] := by
  cases es with
  | nil => exact h.nothing
  | cons e es =>
    rw [exprsThroughout, Bool.and_eq_true] at hes
    exact h.before (e.declare_induction h hes.1) (declareAll_induction h es hes.2)

theorem declareElements_induction (h : DeclareClosed T P) (es : List Element)
    (hes : elementsThroughout T es = true) : P (declareElements es) [] := by
  cases es with
  | nil => exact h.nothing
  | cons e es =>
    obtain ⟨r, v, k, spread, byRef⟩ := e
    simp only [elementsThroughout, Bool.and_eq_true] at hes
    exact h.before (h.before (v.declare_induction h hes.1.1) (declareOption_induction h k hes.1.2))
      (declareElements_induction h es hes.2)

theorem declareDefaults_induction (h : DeclareClosed T P) (ps : List Parameter)
    (hps : parametersThroughout T ps = true) : P (declareDefaults ps) [] := by
  cases ps with
  | nil => exact h.nothing
  | cons p ps =>
    obtain ⟨_, _, _, d, _, _⟩ := p
    rw [parametersThroughout, Bool.and_eq_true] at hps
    exact h.before (declareOption_induction h d hps.1) (declareDefaults_induction h ps hps.2)

theorem declareBody_induction (h : DeclareClosed T P) (s : Option Stmt)
    (hs : bodyThroughout T s = true) : P (declareBody s) (bodyDefinitions s) := by
  cases s with
  | none => exact h.nothing
  | some s =>
    exact s.declare_induction h hs

theorem declareCases_induction (h : DeclareClosed T P) (cs : List Case)
    (hcs : casesThroughout T cs = true) : P (declareCases cs) (caseDefinitions cs) := by
  cases cs with
  | nil => exact h.nothing
  | cons c cs =>
    obtain ⟨r, v, ss⟩ := c
    simp only [casesThroughout, Bool.and_eq_true] at hcs
    exact h.sequence
      (h.before (declareOption_induction h v hcs.1.1) (declareStatements_induction h ss hcs.1.2))
      (declareCases_induction h cs hcs.2)

theorem declareElseIfs_induction (h : DeclareClosed T P) (cs : List ElseIf)
    (hcs : elseIfsThroughout T cs = true) : P (declareElseIfs cs) (elseIfDefinitions cs) := by
  cases cs with
  | nil => exact h.nothing
  | cons c cs =>
    obtain ⟨r, c, b⟩ := c
    simp only [elseIfsThroughout, Bool.and_eq_true] at hcs
    exact h.sequence (h.before (c.declare_induction h hcs.1.1) (b.declare_induction h hcs.1.2))
      (declareElseIfs_induction h cs hcs.2)

theorem declareElse_induction (h : DeclareClosed T P) (e : Option Else)
    (he : elseThroughout T e = true) : P (declareElse e) (elseDefinitions e) := by
  match e with
  | none => exact h.nothing
  | some ⟨r, b⟩ =>
    exact b.declare_induction h he

theorem declareCatches_induction (h : DeclareClosed T P) (cs : List Catch)
    (hcs : catchesThroughout T cs = true) : P (declareCatches cs) (catchDefinitions cs) := by
  cases cs with
  | nil => exact h.nothing
  | cons c cs =>
    obtain ⟨r, ts, b, v⟩ := c
    rw [catchesThroughout, Bool.and_eq_true] at hcs
    exact h.sequence (b.declare_induction h hcs.1) (declareCatches_induction h cs hcs.2)

theorem Function.declareBody_induction (h : DeclareClosed T P) (f : Function)
    (hf : f.throughout T = true) : P f.declareBody f.definitions := by
  match f with
  | ⟨_, _, _, none, _, _⟩ => exact h.nothing
  | ⟨_, _, _, some b, _, _⟩ =>
    rw [Function.throughout, Bool.and_eq_true, bodyThroughout] at hf
    exact b.declare_induction h hf.2

theorem methods_induction (h : DeclareClosed T P) (ms : List Method) (hms : methodsThroughout T ms = true) :
    ∀ m ∈ ms, P m.function.declareBody m.function.definitions := by
  cases ms with
  | nil => simp
  | cons m ms =>
    obtain ⟨f, isStatic⟩ := m
    rw [methodsThroughout, Bool.and_eq_true] at hms
    exact forall_mem_cons.mpr ⟨f.declareBody_induction h hms.1, methods_induction h ms hms.2⟩

theorem Clause.declare_induction (h : DeclareClosed T P) (c : Clause) (hc : c.throughout T = true) :
    P c.declare c.definitions := by
  match c with
  | .element ⟨r, v, k, spread, byRef⟩ =>
    rw [Clause.throughout, Bool.and_eq_true] at hc
    exact h.before (v.declare_induction h hc.1) (declareOption_induction h k hc.2)
  | .parameter ⟨_, _, _, d, _, _⟩ =>
    exact declareOption_induction h d hc
  | .elseIf ⟨r, c, b⟩ =>
    rw [Clause.throughout, Bool.and_eq_true] at hc
    exact h.before (c.declare_induction h hc.1) (b.declare_induction h hc.2)
  | .else_ ⟨r, b⟩ =>
    exact b.declare_induction h hc
  | .case ⟨r, v, ss⟩ =>
    rw [Clause.throughout, Bool.and_eq_true] at hc
    exact h.before (declareOption_induction h v hc.1) (declareStatements_induction h ss hc.2)
  | .catch_ ⟨r, ts, b, v⟩ =>
    exact b.declare_induction h hc
  | .use c => exact h.nothing
  | .constant ⟨r, n, v⟩ =>
    exact v.declare_induction h hc

/-- Entering the declarations of a statement has every property that constructs take over from their
parts. -/
theorem Stmt.declare_induction (h : DeclareClosed T P) (s : Stmt) (hs : s.throughout T = true) :
    P s.declare s.definitions := by
  cases s <;> simp only [Stmt.throughout, Stmt.throughout_method, Bool.and_eq_true] at hs
  case program r ss | block r ss =>
    exact declareStatements_induction h ss hs.2
  case expression r e | bare e =>
    exact e.declare_induction h hs.2
  case echo r es =>
    exact declareAll_induction h es hs.2
  case return_ r e =>
    exact declareOption_induction h e hs.2
  case ifElse r c b eis e =>
    obtain ⟨-, ⟨⟨hc, hb⟩, heis⟩, he⟩ := hs
    exact h.before (c.declare_induction h hc) (h.sequence (b.declare_induction h hb)
      (h.sequence (declareElseIfs_induction h eis heis) (declareElse_induction h e he)))
  case while_ r c b =>
    exact h.before (c.declare_induction h hs.2.1) (b.declare_induction h hs.2.2)
  case doWhile r b c =>
    exact h.after (b.declare_induction h hs.2.2) (c.declare_induction h hs.2.1)
  case for_ r is cs ns b =>
    obtain ⟨-, ⟨⟨his, hcs⟩, hns⟩, hb⟩ := hs
    exact h.before (declareAll_induction h is his) (h.before (declareAll_induction h cs hcs)
      (h.before (declareAll_induction h ns hns) (declareStatements_induction h b hb)))
  case foreach r i v b k byRef =>
    obtain ⟨-, ⟨⟨hi, hv⟩, hb⟩, hk⟩ := hs
    exact h.before (i.declare_induction h hi) (h.before (v.declare_induction h hv)
      (h.after (b.declare_induction h hb) (declareOption_induction h k hk)))
  case switch r e cs =>
    exact h.before (e.declare_induction h hs.2.1) (declareCases_induction h cs hs.2.2)
  case try_ r b cs f =>
    obtain ⟨-, ⟨hb, hcs⟩, hf⟩ := hs
    exact h.sequence (b.declare_induction h hb)
      (h.sequence (declareCatches_induction h cs hcs) (declareBody_induction h f hf))
  case function f =>
    exact h.function f hs.1 (f.declareBody_induction h hs.2)
  case method m =>
    obtain ⟨⟨_, _, ps, b, _, _⟩, isStatic⟩ := m
    rw [Function.throughout, Bool.and_eq_true] at hs
    exact h.before (declareDefaults_induction h ps hs.2.1) (declareBody_induction h b hs.2.2)
  case class_ r n p is ms isInterface =>
    exact h.class_ r n p is ms isInterface hs.1 (methods_induction h ms hs.2)
  case namespace_ r n b =>
    refine h.namespace_ r n b hs.1 ?_
    cases b with
    | none =>
      intro m hm
      cases hm
    | some b =>
      intro m hm
      obtain rfl := Option.some.inj hm
      exact b.declare_induction h hs.2
  case use r cs =>
    exact h.use r cs hs.1
  case const r cs =>
    exact h.const r cs hs.1
  case clause c =>
    exact c.declare_induction h hs.2
  case comment _ _ | break_ _ | continue_ _ | empty _ | global _ _ | unknown _ _ _ => exact h.nothing

theorem declareStatements_induction (h : DeclareClosed T P) (ss : List Stmt)
    (hss : blockThroughout T ss = true) : P (declareStatements ss) (blockDefinitions ss) := by
  cases ss with
  | nil => exact h.nothing
  | cons s ss =>
    rw [blockThroughout, Bool.and_eq_true] at hss
    exact h.sequence (s.declare_induction h hss.1) (declareStatements_induction h ss hss.2)

end

end Declaring

section Analysis

/-- What holds of each step of a list holds of each of its members. -/
theorem forall_mem_of_forall₂ {β : Type} {p : β → Prop} {xs : List α} {ms : List β}
    (h : List.Forall₂ (fun _ m => p m) xs ms) : ∀ m ∈ ms, p m := by
  induction h with
  | nil => simp
  | cons hm _ ih => exact forall_mem_cons.mpr ⟨hm, ih⟩

/-- A property that the smallest steps of an analysis have, each with its grade. -/
structure LeafClosed {G : Type} (T : NodeTest) (g : Grade G) (Q : Bool → G → {α : Type} → Step α → Prop) :
    Prop where
  type : ∀ {b : Bool} (e : Expr), Q b g.one (Step.query e.type)
  value : ∀ {b : Bool} (e : Expr), Q b g.one (Step.query e.value)
  missing : ∀ {b : Bool} message range, Q b g.one (Step.reportMissing message range)
  readVariable : ∀ {b : Bool} r n,
    Q b (g.reading (if n = "this" || superglobals.contains n then [] else [n])) (readVariable r n)
  storeFrom : ∀ target source keepsValue,
    Q true (g.writing target.targets) (Expr.storeFrom target source keepsValue)
  storeUpdate : ∀ r op argument before,
    Q true (g.writing argument.targets) (Expr.storeUpdate r op argument before)
  bindElement : ∀ k v types,
    Q true (g.writing ((k.map Expr.targets).getD [] ++ v.targets)) (bindElement k v types)
  bindCaught : ∀ types v,
    Q true (g.writing ((v.map fun v => (Expr.var v.range v.name).targets).getD [])) (bindCaught types v)
  keepDoc : ∀ {b : Bool} r t, T.stmt (.comment r t) = true → Q b (g.comment t) (keepDoc t r)
  applyDoc : ∀ assigned, Q true g.one (applyDoc assigned)
  declareGlobals : ∀ r vs, T.stmt (.global r vs) = true → Q true (g.global (vs.map (·.name))) (declareGlobals vs)

/-- The method may stand by itself, or in a class. -/
def NodeTest.Admits (T : NodeTest) (m : Method) : Prop :=
  T.stmt (.method m) = true ∨ ∃ r n p is ms isInterface, m ∈ ms ∧ T.stmt (.class_ r n p is ms isInterface) = true

/-- A property that passes from the parts of a construct to its analysis: `P` of steps that answer whether to
go on, and `Q` of the small steps around them. Of the functions that are defined on the way `F` is known.
Where faults are caught, as the first argument of the properties says, they may be weaker. What they say may
depend on a grade of the code. -/
structure AnalysisClosed {G : Type} (T : NodeTest) (F : Function → Prop) (g : Grade G)
    (Q : Bool → G → {α : Type} → Step α → Prop) (P : Bool → G → Step Bool → Prop) : Prop
    extends LeafClosed T g Q where
  lawful : g.Lawful
  pure : ∀ {b : Bool} {α : Type} (a : α), Q b g.one (pure a)
  bind : ∀ {b : Bool} {x y : G} {α β : Type} {m : Step α} {f : α → Step β}, Q b x m → (∀ a, Q b y (f a)) →
    Q b (g.mul x y) (m >>= f)
  use : ∀ {b : Bool} r cs, T.stmt (.use r cs) = true → Q b g.one (Step.modify (registerUses cs))
  function : ∀ f, T.stmt (.function f) = true → F f →
    P true (g.function f) (f.analyzeBody .function) →
    Q true (g.nested (g.function f)) (f.define (f.analyzeBody .function))
  goesOn : ∀ {b : Bool}, P b g.one (Pure.pure true)
  passesBy : ∀ {b : Bool} (text : String), P b (g.comment text) (Pure.pure true)
  after : ∀ {b : Bool} {x y : G} {α : Type} {m : Step α} {f : α → Step Bool}, Q b x m →
    (∀ a, P b y (f a)) → P b (g.mul x y) (m >>= f)
  andThen : ∀ {b : Bool} {x y : G} {m n : Step Bool}, P b x m → P b y n → P b (g.mul x y) (Step.andThen m n)
  guarded : ∀ {b : Bool} {x : G} {m : Step Bool} (r : Range), P true x m → P b x (Step.guarded r true m)
  syntaxError : ∀ {b : Bool} r t k, T.expr (.error r t) = true → P b g.one (reportSyntaxError r k)
  addVoid : ∀ {b : Bool}, P b (g.returning none) (Step.thenContinue (addReturn (.prim .void) none))
  addReturned : ∀ {b : Bool} (e : Expr), P b (g.returning (some e)) (do
    let u ← Step.query e.type
    let v ← Step.query e.value
    addReturn (u.getD (.prim .mixed)) v
    return true)
  detour : ∀ {x : G} {makeBranch : Step Handle} {m : Step Bool}, MakesBranch makeBranch → P true x m →
    ∀ side, P true x (Step.detour makeBranch side m)
  choice : ∀ c {x y : G} {m n : Step Bool}, P true x m → P true y n → P true (g.mul x y) (Step.choice c m n)
  inLoop : ∀ {x : G} {m : Step Bool}, P true x m → P true x (Step.inLoop m)
  switchArms : ∀ hasDefault {xs : List G} {arms : List (Step Bool)}, (hasDefault = true → arms ≠ []) →
    List.Forall₂ (P true) xs arms → P true (g.sum xs) (switchArms hasDefault arms)
  method : ∀ m, T.Admits m → P true (g.function m.function) (m.function.analyzeBody .method) →
    Q true (g.nested (g.function m.function)) (m.define (m.function.analyzeBody .method))
  class_ : ∀ {b : Bool} r n p is ms isInterface k, T.stmt (.class_ r n p is ms isInterface) = true →
    (∀ m ∈ ms, Q true (g.nested (g.function m.function)) (m.define (m.function.analyzeBody .method))) →
    P b (g.nested (g.methods ms)) ((Stmt.class_ r n p is ms isInterface).analyze k)
  namespace_ : ∀ {b : Bool} r n body, T.stmt (.namespace_ r n body) = true →
    (∀ m ∈ namespaceBody body, P b (g.body body) m) → P b (g.body body) (inNamespace n (namespaceBody body))

variable {G : Type} {T : NodeTest} {F : Function → Prop} {g : Grade G}
  {Q : Bool → G → {α : Type} → Step α → Prop} {P : Bool → G → Step Bool → Prop} {b : Bool}

/-- Where it makes no difference what is read and written, one rule for all small steps is enough. -/
theorem StepClosed.leaves (h : StepClosed fun b => @Q b g.one) (hs : StoreClosed fun _ => @Q true g.one)
    (hreading : ∀ xs, g.reading xs = g.one := by exact fun _ => rfl)
    (hwriting : ∀ xs, g.writing xs = g.one := by exact fun _ => rfl)
    (hcomment : ∀ t, g.comment t = g.one := by exact fun _ => rfl)
    (hglobal : ∀ xs, g.global xs = g.one := by exact fun _ => rfl) : LeafClosed T g Q where
  type := h.type
  value := h.value
  missing := h.missing
  readVariable r n := (hreading _).symm ▸ h.readVariable r n
  storeFrom x y keeps := (hwriting _).symm ▸ hs.storeFrom x y keeps
  storeUpdate r op x before := (hwriting _).symm ▸ hs.storeUpdate r op x before
  bindElement k v us := (hwriting _).symm ▸ hs.bindElement k v us
  bindCaught ts v := (hwriting _).symm ▸ hs.bindCaught ts v
  keepDoc r t _ := (hcomment t).symm ▸ h.keepDoc t r
  applyDoc := h.applyDoc
  declareGlobals _ vs _ := (hglobal _).symm ▸ h.declareGlobals vs

namespace AnalysisClosed

variable (h : AnalysisClosed T F g Q P)

include h

theorem before {x : G} {α : Type} {m : Step α} {f : α → Step Bool} (hm : Q b g.one m)
    (hf : ∀ a, P b x (f a)) : P b x (m >>= f) := by
  have hmf := h.after hm hf
  rwa [h.lawful.one_mul] at hmf

theorem thenContinue {x : G} {m : Step Unit} (hm : Q b x m) : P b x (Step.thenContinue m) := by
  have hlast := h.after hm fun _ => h.goesOn
  rwa [h.lawful.mul_one] at hlast

theorem behind {x : G} {m n : Step Bool} (hm : P b x m) (hn : P b g.one n) : P b x (Step.andThen m n) := by
  have hmn := h.andThen hm hn
  rwa [h.lawful.mul_one] at hmn

theorem writes {xs ys : List String} {m n : Step Bool} (hm : P b (g.writing xs) m) (hn : P b (g.writing ys) n) :
    P b (g.writing (xs ++ ys)) (Step.andThen m n) := by
  rw [h.lawful.writing_append]
  exact h.andThen hm hn

theorem writesNothing {m : Step Bool} (hm : P b g.one m) : P b (g.writing []) m := by
  rwa [h.lawful.writing_nil]

theorem reads (e : Expr) (role : Role) : Q b (g.reading (e.readings role)) (e.read role) := by
  have hclosed : ReadClosed fun xs m => Q b (g.reading xs) m := by
    refine ⟨?_, fun hm hn => ?_, h.readVariable⟩
    · rw [h.lawful.reading_nil]
      exact h.pure ()
    · rw [h.lawful.reading_append]
      exact h.bind hm fun _ => hn
  exact e.read_induction hclosed role

theorem silent {α β : Type} {m : Step α} {f : α → Step β} (hm : Q b g.one m) (hf : ∀ a, Q b g.one (f a)) :
    Q b g.one (m >>= f) := by
  have hmf := h.bind hm hf
  rwa [h.lawful.one_mul] at hmf

theorem check (e : Expr) : Q b g.one e.check :=
  h.silent (h.type e) fun _ => h.silent (h.value e) fun _ => h.pure ()

theorem loopBody {x : G} {makeBranch : Step Handle} {body : Step Bool} (hm : MakesBranch makeBranch)
    (hbody : P true x body) : P true x (loopBody makeBranch body) :=
  h.detour hm (h.inLoop hbody) .onFalse

end AnalysisClosed

section Expressions

variable (h : AnalysisClosed T F g Q P)

include h

mutual

theorem Expr.analyze_induction {b : Bool} (e : Expr) (he : e.throughout T = true) (role : Role) (k : NodeKind) :
    P b (g.writing (e.writings role)) (e.analyze role k) := by
  cases e <;> simp only [Expr.throughout, Bool.and_eq_true] at he
  case assign r x y byRef =>
    exact h.guarded r (h.writes (y.analyze_induction he.2.2 .value _)
      (h.writes (x.analyze_induction he.2.1 .target _) (h.thenContinue (h.storeFrom x y _))))
  case augment r x op y =>
    exact h.guarded r (h.writes (y.analyze_induction he.2.2 .value _)
      (h.writes (x.analyze_induction he.2.1 .target _) (h.thenContinue (h.storeFrom x _ true))))
  case update r op x before =>
    exact h.guarded r (h.writes (x.analyze_induction he.2 .target _)
      (h.thenContinue (h.storeUpdate r op x before)))
  case binary r x op y =>
    refine h.guarded r (h.writes (x.analyze_induction he.2.1 .value _) (h.behind ?_ (h.thenContinue (h.check _))))
    split
    · exact h.detour (makesBranch_rightBranch _ x) (y.analyze_induction he.2.2 .value _) .neutral
    · exact y.analyze_induction he.2.2 .value _
  case ternary r c y x =>
    refine h.guarded r (h.writes (c.analyze_induction he.2.1.1 .value _) ?_)
    rw [h.lawful.writing_append]
    exact h.choice c (analyzeOption_induction y he.2.1.2 _) (x.analyze_induction he.2.2 .value _)
  case unary r op x =>
    exact h.behind (x.analyze_induction he.2 .value _)
      (h.thenContinue (h.silent (h.value (.unary r op x)) fun _ => h.pure ()))
  case paren r x =>
    cases role with
    | value => exact x.analyze_induction he.2 .value _
    | target => exact x.analyze_induction he.2 .target _
  case subscript r x i =>
    cases role with
    | value => exact h.writes (x.analyze_induction he.2.1 .value _) (analyzeOption_induction i he.2.2 _)
    | target => exact h.writes (x.analyze_induction he.2.1 .target _) (analyzeOption_induction i he.2.2 _)
  case array r es =>
    cases role with
    | value => exact analyzeElements_induction es he.2
    | target => exact analyzeTargets_induction es he.2 k
  case call r f as | create r f as =>
    exact h.writes (f.analyze_induction he.2.1 .value _) (analyzeAll_induction as he.2.2 _)
  case cast r t x =>
    exact x.analyze_induction he.2 .value _
  case sequence r es =>
    exact analyzeAll_induction es he.2 _
  case select r x arms =>
    exact h.before (h.missing _ _) fun _ => x.analyze_induction he.2.1 .value _
  case closure r ps body | unknown r g t => exact h.writesNothing (h.thenContinue (h.missing _ _))
  case error r t =>
    exact h.writesNothing (h.syntaxError r t k he.1)
  case var _ _ | integer _ _ | float _ _ | string _ _ | boolean _ _ | null _ | name _ _ =>
    exact h.writesNothing h.goesOn

theorem analyzeOption_induction {b : Bool} (e : Option Expr) (he : optionThroughout T e = true) (k : NodeKind) :
    P b (g.writing (optionWritings e)) (analyzeOption e k) := by
  cases e with
  | none => exact h.writesNothing h.goesOn
  | some e =>
    exact e.analyze_induction he .value k

theorem analyzeAll_induction {b : Bool} (es : List Expr) (hes : exprsThroughout T es = true) (k : NodeKind) :
    P b (g.writing (allWritings es)) (analyzeAll es k) := by
  cases es with
  | nil => exact h.writesNothing h.goesOn
  | cons e es =>
    rw [exprsThroughout, Bool.and_eq_true] at hes
    exact h.writes (e.analyze_induction hes.1 .value k) (analyzeAll_induction es hes.2 k)

theorem analyzeElements_induction {b : Bool} (es : List Element) (hes : elementsThroughout T es = true) :
    P b (g.writing (elementWritings es)) (analyzeElements es) := by
  cases es with
  | nil => exact h.writesNothing h.goesOn
  | cons e es =>
    obtain ⟨_, v, k, _, _⟩ := e
    simp only [elementsThroughout, Bool.and_eq_true] at hes
    exact h.writes (v.analyze_induction hes.1.1 .value _)
      (h.writes (analyzeOption_induction k hes.1.2 _) (analyzeElements_induction es hes.2))

theorem analyzeTargets_induction {b : Bool} (es : List Element) (hes : elementsThroughout T es = true)
    (k : NodeKind) : P b (g.writing (targetWritings es)) (analyzeTargets es k) := by
  cases es with
  | nil => exact h.writesNothing h.goesOn
  | cons e es =>
    obtain ⟨_, v, _, _, _⟩ := e
    simp only [elementsThroughout, Bool.and_eq_true] at hes
    exact h.writes (v.analyze_induction hes.1.1 .target k) (analyzeTargets_induction es hes.2 k)

end

theorem Expr.evaluate_induction (e : Expr) (he : e.throughout T = true) (k : NodeKind) :
    P b (g.evaluated e) (e.evaluate k) :=
  h.after (h.reads e .value) fun _ => e.analyze_induction h he .value k

theorem evaluateAll_induction (es : List Expr) (hes : exprsThroughout T es = true) (k : NodeKind) :
    P b (g.all g.evaluated es) (evaluateAll es k) := by
  induction es with
  | nil => exact h.goesOn
  | cons e es ih =>
    rw [exprsThroughout, Bool.and_eq_true] at hes
    exact h.andThen (e.evaluate_induction h hes.1 k) (ih hes.2)

end Expressions

section Statements

theorem returnValue_induction (h : AnalysisClosed T F g Q P) (e : Option Expr)
    (he : optionThroughout T e = true) :
    P b (g.mul (g.all g.evaluated e.toList) (g.returning e)) (returnValue e) := by
  cases e with
  | none =>
    change P b (g.mul g.one (g.returning none)) _
    rw [h.lawful.one_mul]
    exact h.addVoid
  | some e =>
    change P b (g.mul (g.mul (g.evaluated e) g.one) (g.returning (some e))) _
    rw [h.lawful.mul_one]
    exact h.andThen (e.evaluate_induction h he _) (h.addReturned e)

theorem foreachLoop_induction (h : AnalysisClosed T F g Q P) (i v : Expr) (hi : i.throughout T = true)
    (k : Option Expr) {x : G} {body : Step Bool} (hbody : P true x body) :
    P true (g.mul (g.evaluated i) (g.mul (g.writing ((k.map Expr.targets).getD [] ++ v.targets)) x))
      (foreachLoop i k v body) :=
  h.andThen (i.evaluate_induction h hi _) (h.before (h.type i) fun _ =>
    h.loopBody (.current .onTrue) (h.after (h.bindElement k v _) fun _ => hbody))

theorem Stmt.unlessComment_induction (h : AnalysisClosed T F g Q P) (s : Stmt) {m : Step Bool}
    (hm : P b (g.stmt s) m) : P b (g.stmt s) (s.unlessComment m) := by
  cases s with
  | comment r t => exact h.passesBy t
  | _ => exact hm

mutual

/-- The analysis of a statement has every property that constructs take over from their parts. -/
theorem Stmt.analyze_induction (h : AnalysisClosed T F g Q P) {b : Bool} (s : Stmt) (hs : s.throughout T = true)
    (hf : ∀ f ∈ s.definitions, F f) (k : NodeKind) : P b (g.stmt s) (s.analyze k) := by
  cases s <;> simp only [Stmt.throughout, Stmt.throughout_method, Bool.and_eq_true] at hs
  case method m =>
    obtain ⟨f, isStatic⟩ := m
    exact h.guarded f.range (h.thenContinue
      (h.method ⟨f, isStatic⟩ (.inl hs.1) (f.analyzeBody_induction h hs.2 hf _)))
  all_goals rw [Grade.stmt]
  case comment r t =>
    exact h.thenContinue (h.keepDoc r t hs.1)
  case program r ss | block r ss =>
    exact h.guarded r (analyzeStatements_induction h ss hs.2 hf _)
  case expression r e =>
    exact e.evaluate_induction h hs.2 _
  case echo r es =>
    exact evaluateAll_induction h es hs.2 _
  case return_ r e =>
    exact returnValue_induction h e hs.2
  case ifElse r c body eis e =>
    obtain ⟨-, ⟨⟨hc, hbody⟩, heis⟩, he⟩ := hs
    simp only [Stmt.definitions, forall_mem_append] at hf
    exact h.guarded r (h.andThen (c.evaluate_induction h hc _) (h.choice c
      (body.analyze_induction h hbody hf.1 _)
      (analyzeElseIfs_induction h eis heis hf.2.1 (analyzeElse_induction h e he hf.2.2))))
  case while_ r c body =>
    exact h.guarded r (h.andThen (c.evaluate_induction h hs.2.1 _)
      (h.loopBody (.condition c .onTrue) (body.analyze_induction h hs.2.2 hf _)))
  case doWhile r body c =>
    exact h.guarded r (h.andThen (h.inLoop (body.analyze_induction h hs.2.2 hf _))
      (c.evaluate_induction h hs.2.1 _))
  case for_ r is cs ns body =>
    obtain ⟨-, ⟨⟨his, hcs⟩, hns⟩, hbody⟩ := hs
    exact h.guarded r (h.andThen (evaluateAll_induction h is his _)
      (h.andThen (evaluateAll_induction h cs hcs _) (h.loopBody (makesBranch_forBranch cs)
        (h.andThen (analyzeStatements_induction h body hbody hf _) (evaluateAll_induction h ns hns _)))))
  case foreach r i v body k byRef =>
    obtain ⟨-, ⟨⟨hi, -⟩, hbody⟩, -⟩ := hs
    exact h.guarded r (foreachLoop_induction h i v hi k (body.analyze_induction h hbody hf _))
  case switch r e cs =>
    have hsome : (cs.any fun c => c.value.isNone) = true → caseArms cs ≠ [] := by
      match cs with
      | [] => simp
      | ⟨_, _, _⟩ :: _ => simp [caseArms]
    exact h.guarded r (h.andThen (e.evaluate_induction h hs.2.1 _)
      (h.switchArms _ hsome (caseArms_induction h cs hs.2.2 hf)))
  case try_ r body cs f =>
    obtain ⟨-, ⟨hbody, hcs⟩, hlast⟩ := hs
    simp only [Stmt.definitions, forall_mem_append] at hf
    refine h.guarded r ?_
    rw [tryArms_eq]
    exact h.andThen (h.switchArms true (by simp) (.cons (body.analyze_induction h hbody hf.1 _)
      (catchArms_induction h cs hcs hf.2.1))) (analyzeFinally_induction h f hlast hf.2.2)
  case function f =>
    rw [Stmt.definitions, forall_mem_cons] at hf
    exact h.guarded f.range
      (h.thenContinue (h.function f hs.1 hf.1 (f.analyzeBody_induction h hs.2 hf.2 _)))
  case class_ r n p is ms isInterface =>
    exact h.class_ r n p is ms isInterface k hs.1 fun m hm =>
      h.method m (.inr ⟨_, _, _, _, _, _, hm, hs.1⟩) (methodBodies_induction h ms hs.2 hf m hm)
  case namespace_ r n body =>
    exact h.namespace_ r n body hs.1 (namespaceBody_induction h body hs.2 hf)
  case use r cs =>
    exact h.thenContinue (h.use r cs hs.1)
  case const r cs =>
    exact analyzeConstants_induction h cs hs.2
  case global r vs => exact h.guarded r (h.thenContinue (h.declareGlobals r vs hs.1))
  case unknown r g t => exact h.thenContinue (h.missing _ _)
  case bare e =>
    exact e.analyze_induction h hs.2 .value k
  case clause c =>
    exact c.analyze_induction h hs.2 hf
  case break_ r | continue_ r | empty r => exact h.goesOn

theorem analyzeStatements_induction (h : AnalysisClosed T F g Q P) (ss : List Stmt)
    (hss : blockThroughout T ss = true) (hf : ∀ f ∈ blockDefinitions ss, F f) (k : NodeKind) :
    P true (g.block ss) (analyzeStatements ss k) := by
  cases ss with
  | nil =>
    rw [analyzeStatements]
    exact h.goesOn
  | cons s ss =>
    rw [blockThroughout, Bool.and_eq_true] at hss
    rw [blockDefinitions, forall_mem_append] at hf
    by_cases hcomment : ∃ r t, s = .comment r t
    · obtain ⟨r, t, rfl⟩ := hcomment
      simp only [Stmt.throughout, Bool.and_eq_true] at hss
      rw [analyzeStatements]
      exact h.after (h.keepDoc r t hss.1.1) fun _ => analyzeStatements_induction h ss hss.2 hf.2 k
    · rw [analyzeStatements]
      · exact h.before (h.applyDoc _) fun _ =>
          h.andThen (s.analyze_induction h hss.1 hf.1 k) (analyzeStatements_induction h ss hss.2 hf.2 k)
      · exact fun r t he => hcomment ⟨r, t, he⟩

theorem analyzeElseIfs_induction (h : AnalysisClosed T F g Q P) (cs : List ElseIf)
    (hcs : elseIfsThroughout T cs = true)
    (hf : ∀ f ∈ elseIfDefinitions cs, F f) {x : G} {last : Step Bool} (hlast : P true x last) :
    P true (g.elseIfs cs x) (analyzeElseIfs cs last) := by
  cases cs with
  | nil => exact hlast
  | cons c cs =>
    obtain ⟨_, c, body⟩ := c
    simp only [elseIfsThroughout, Bool.and_eq_true] at hcs
    rw [elseIfDefinitions, forall_mem_append] at hf
    exact h.andThen (c.evaluate_induction h hcs.1.1 _)
      (h.choice c (body.analyze_induction h hcs.1.2 hf.1 _)
        (analyzeElseIfs_induction h cs hcs.2 hf.2 hlast))

theorem analyzeElse_induction (h : AnalysisClosed T F g Q P) (e : Option Else) (he : elseThroughout T e = true)
    (hf : ∀ f ∈ elseDefinitions e, F f) : P true (g.else_ e) (analyzeElse e) := by
  match e with
  | none => exact h.goesOn
  | some ⟨_, body⟩ =>
    exact body.analyze_induction h he hf _

theorem caseArms_induction (h : AnalysisClosed T F g Q P) (cs : List Case) (hcs : casesThroughout T cs = true)
    (hf : ∀ f ∈ caseDefinitions cs, F f) : List.Forall₂ (P true) (g.cases cs) (caseArms cs) := by
  cases cs with
  | nil => exact .nil
  | cons c cs =>
    obtain ⟨_, v, ss⟩ := c
    simp only [casesThroughout, Bool.and_eq_true] at hcs
    rw [caseDefinitions, forall_mem_append] at hf
    have hv : exprsThroughout T v.toList = true := by
      cases v with
      | none => rfl
      | some e =>
        rw [optionThroughout] at hcs
        simp [exprsThroughout, hcs.1.1]
    exact .cons (h.andThen (evaluateAll_induction h _ hv _)
      (analyzeStatements_induction h ss hcs.1.2 hf.1 _)) (caseArms_induction h cs hcs.2 hf.2)

theorem catchArms_induction (h : AnalysisClosed T F g Q P) (cs : List Catch)
    (hcs : catchesThroughout T cs = true)
    (hf : ∀ f ∈ catchDefinitions cs, F f) : List.Forall₂ (P true) (g.catches cs) (catchArms cs) := by
  cases cs with
  | nil => exact .nil
  | cons c cs =>
    obtain ⟨_, ts, body, v⟩ := c
    rw [catchesThroughout, Bool.and_eq_true] at hcs
    rw [catchDefinitions, forall_mem_append] at hf
    exact .cons (h.after (h.bindCaught ts v) fun _ => body.analyze_induction h hcs.1 hf.1 _)
      (catchArms_induction h cs hcs.2 hf.2)

theorem analyzeFinally_induction (h : AnalysisClosed T F g Q P) (s : Option Stmt)
    (hs : bodyThroughout T s = true)
    (hf : ∀ f ∈ bodyDefinitions s, F f) : P true (g.body s) (analyzeFinally s) := by
  cases s with
  | none => exact h.goesOn
  | some s =>
    exact s.analyze_induction h hs hf _

theorem Function.analyzeBody_induction (h : AnalysisClosed T F g Q P) (f : Function)
    (hbody : f.throughout T = true)
    (hf : ∀ g ∈ f.definitions, F g) (k : NodeKind) : P true (g.function f) (f.analyzeBody k) := by
  match f with
  | ⟨_, _, _, none, _, _⟩ => exact h.goesOn
  | ⟨_, _, _, some body, _, _⟩ =>
    rw [Function.throughout, Bool.and_eq_true, bodyThroughout] at hbody
    exact body.analyze_induction h hbody.2 hf k

theorem methodBodies_induction (h : AnalysisClosed T F g Q P) (ms : List Method)
    (hms : methodsThroughout T ms = true) (hf : ∀ f ∈ methodDefinitions ms, F f) :
    ∀ m ∈ ms, P true (g.function m.function) (m.function.analyzeBody .method) := by
  cases ms with
  | nil => simp
  | cons m ms =>
    obtain ⟨f, isStatic⟩ := m
    rw [methodsThroughout, Bool.and_eq_true] at hms
    rw [methodDefinitions, forall_mem_append] at hf
    exact forall_mem_cons.mpr
      ⟨f.analyzeBody_induction h hms.1 hf.1 _, methodBodies_induction h ms hms.2 hf.2⟩

theorem namespaceBody_induction (h : AnalysisClosed T F g Q P) {b : Bool} (s : Option Stmt)
    (hs : bodyThroughout T s = true)
    (hf : ∀ f ∈ bodyDefinitions s, F f) : ∀ m ∈ namespaceBody s, P b (g.body s) m := by
  cases s with
  | none =>
    intro m hm
    cases hm
  | some s =>
    intro m hm
    obtain rfl := Option.some.inj hm
    exact s.analyze_induction h hs hf _

theorem analyzeConstants_induction (h : AnalysisClosed T F g Q P) {b : Bool} (cs : List Constant)
    (hcs : constantsThroughout T cs = true) :
    P b (g.all (fun c => g.evaluated c.value) cs) (analyzeConstants cs) := by
  cases cs with
  | nil => exact h.goesOn
  | cons c cs =>
    obtain ⟨_, _, v⟩ := c
    rw [constantsThroughout, Bool.and_eq_true] at hcs
    exact h.andThen (v.evaluate_induction h hcs.1 _) (analyzeConstants_induction h cs hcs.2)

theorem Clause.analyze_induction (h : AnalysisClosed T F g Q P) {b : Bool} (c : Clause)
    (hc : c.throughout T = true) (hf : ∀ f ∈ c.definitions, F f) : P b (g.clause c) c.analyze := by
  match c with
  | .element ⟨r, v, k, spread, byRef⟩ =>
    have hes : elementsThroughout T [⟨r, v, k, spread, byRef⟩] = true := by
      simpa [elementsThroughout, Clause.throughout] using hc
    exact analyzeElements_induction h _ hes
  | .parameter ⟨_, _, _, d, _, _⟩ =>
    exact analyzeOption_induction h d hc _
  | .elseIf ⟨_, c, body⟩ =>
    rw [Clause.throughout, Bool.and_eq_true] at hc
    exact h.andThen (c.analyze_induction h hc.1 .value _)
      (body.unlessComment_induction h (body.analyze_induction h hc.2 hf _))
  | .else_ ⟨_, body⟩ | .catch_ ⟨_, _, body, _⟩ =>
    exact body.unlessComment_induction h (body.analyze_induction h hc hf _)
  | .case ⟨_, v, ss⟩ =>
    rw [Clause.throughout, Bool.and_eq_true] at hc
    exact h.andThen (analyzeOption_induction h v hc.1 _) (analyzeParts_induction h ss hc.2 hf)
  | .use c => exact h.goesOn
  | .constant ⟨_, _, v⟩ =>
    exact v.analyze_induction h hc .value _

theorem analyzeParts_induction (h : AnalysisClosed T F g Q P) {b : Bool} (ss : List Stmt)
    (hss : blockThroughout T ss = true)
    (hf : ∀ f ∈ blockDefinitions ss, F f) : P b (g.block ss) (analyzeParts ss) := by
  cases ss with
  | nil => exact h.goesOn
  | cons s ss =>
    rw [blockThroughout, Bool.and_eq_true] at hss
    rw [blockDefinitions, forall_mem_append] at hf
    exact h.andThen (s.unlessComment_induction h (s.analyze_induction h hss.1 hf.1 _))
      (analyzeParts_induction h ss hss.2 hf.2)

end

end Statements

end Analysis

end PhpFlow
