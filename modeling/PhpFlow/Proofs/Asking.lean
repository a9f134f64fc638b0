import PhpFlow.Proofs.NumericFaults

/-!
# What an expression asks

The type and the value of an expression are put together from few kinds of questions: what its variables
are, what its names stand for, and what can be computed from the answers. A property of queries that these
questions have, and that passes on to one query after another, is a property of both.
-/
namespace PhpFlow

open List

/-- What the names in code stand for. Of a function only the type that it returns can be asked for. -/
structure Bearings where
  namespaceName : Option QualifiedName
  uses : List (String × QualifiedName)
  currentClass : Option QualifiedName
  classes : List ClassSymbol
  constants : List ConstantSymbol
  returnType : QualifiedName → Option (Option TypeUnion)

namespace State

variable {s t : State}

def bearings (s : State) : Bearings where
  namespaceName := s.namespaceName
  uses := s.uses
  currentClass := s.currentClass
  classes := s.symbols.classes
  constants := s.symbols.constants
  returnType q := (s.symbols.function? q).map (·.returnType)

theorem position_of_file (h : t.file = s.file) : t.position = s.position :=
  funext fun r => congrArg (Position.mk · r) h

variable (h : t.bearings = s.bearings)

include h

theorem qualify_of_bearings : t.qualify = s.qualify := by
  have hns : t.namespaceName = s.namespaceName := congrArg Bearings.namespaceName h
  funext name
  simp only [qualify, hns]

theorem resolveClass_of_bearings : t.resolveClass = s.resolveClass := by
  have hclass : t.currentClass = s.currentClass := congrArg Bearings.currentClass h
  have huses : t.uses = s.uses := congrArg Bearings.uses h
  funext name
  simp only [resolveClass, resolveClass.throughUses, hclass, huses, qualify_of_bearings h]

theorem constant?_of_bearings : t.constant? = s.constant? := by
  have hconstants : t.symbols.constants = s.symbols.constants := congrArg Bearings.constants h
  funext name
  simp only [constant?, SymbolTable.constant?, hconstants, qualify_of_bearings h]

theorem nameValue?_of_bearings : t.nameValue? = s.nameValue? := by
  funext name
  simp only [nameValue?, constant?_of_bearings h]

theorem nameType?_of_bearings : t.nameType? = s.nameType? := by
  funext name
  simp only [nameType?, nameValue?_of_bearings h, constant?_of_bearings h]

theorem resolveFunction_of_bearings : t.resolveFunction = s.resolveFunction := by
  have hknown (q : QualifiedName) :
      (t.symbols.function? q).isSome = (s.symbols.function? q).isSome := by
    have hq := congrArg Option.isSome (congrFun (congrArg Bearings.returnType h) q)
    simpa only [bearings, Option.isSome_map] using hq
  funext name
  simp only [resolveFunction, resolveClass_of_bearings h, qualify_of_bearings h, hknown]

/-- What a call of the function with this name gives. -/
theorem returnType_of_bearings (q : QualifiedName) :
    (t.symbols.function? q).bind (·.returnType) = (s.symbols.function? q).bind (·.returnType) := by
  have hq : (t.symbols.function? q).map (·.returnType) = (s.symbols.function? q).map (·.returnType) :=
    congrFun (congrArg Bearings.returnType h) q
  simpa only [Option.bind_map, Function.id_comp] using congrArg (Option.bind · id) hq

end State

/-- The classes are all that a search in their hierarchy looks at. -/
theorem SymbolTable.searchUp_congr {t t' : SymbolTable} (h : t'.classes = t.classes) (target : String)
    (unseen : List ClassSymbol) (pending : List QualifiedName) (complete : Bool) :
    t'.searchUp target unseen pending complete = t.searchUp target unseen pending complete := by
  have hclass (q : QualifiedName) : t'.class? q = t.class? q := by simp only [class?, h]
  fun_induction t.searchUp target unseen pending complete with
  | case1 unseen => rw [searchUp, if_pos rfl]
  | case2 unseen complete hc => rw [searchUp, if_neg hc]
  | case3 => rw [searchUp, if_pos ‹_›]
  | case4 unseen complete q pending hq c hc ih =>
    rw [searchUp, if_neg hq]
    split
    · next c' hc' =>
      obtain rfl : c' = c := Option.some.inj (hc'.symm.trans hc)
      exact ih
    · next hc' => simp [hc] at hc'
  | case5 unseen complete q pending hq hc ih =>
    rw [searchUp, if_neg hq]
    split
    · next c' hc' => simp [hc] at hc'
    · rw [hclass]
      exact ih

theorem State.derives_of_bearings {s t : State} (h : t.bearings = s.bearings) :
    t.symbols.derives = s.symbols.derives := by
  have hclasses : t.symbols.classes = s.symbols.classes := congrArg Bearings.classes h
  funext child ancestor
  simp only [SymbolTable.derives, SymbolTable.derives?, SymbolTable.searchUp_congr hclasses, hclasses]

/-- A property of queries that holds of whatever can be asked about the variables in `V`, about names and
about numbers, and of one query after another. -/
structure QueryClosed (V : String → Prop) (P : {α : Type} → Query α → Prop) : Prop where
  pure : ∀ {α : Type} (a : α), P (Query.pure a)
  bind : ∀ {α β : Type} {q : Query α} {f : α → Query β}, P q → (∀ a, P (f a)) → P (q >>= f)
  ask : ∀ {α : Type} {f : State → α}, (∀ s t : State, t.bearings = s.bearings → f t = f s) → P (Query.ask f)
  ofExcept : ∀ {α : Type} {r : Except Fault α}, NumericOnly r → P (Query.ofExcept r)
  report : ∀ {kind : IssueKind}, kind ≠ .internalError ∧ kind ≠ .parseError →
    ∀ message range, P (Query.report kind message range)
  unrecognized : ∀ {α : Type} (r : Range) {token : String}, Operator.ofToken? token = none →
    P (Meaning.unrecognized r token : Query (Option α))
  variableType : ∀ r n, V n → P (Meaning.ofVariable r n).type
  variableValue : ∀ r n, V n → P (Meaning.ofVariable r n).value

structure Meaning.Has (P : {α : Type} → Query α → Prop) (m : Meaning) : Prop where
  type : P m.type
  value : P m.value

structure Operands.Has (P : {α : Type} → Query α → Prop) (o : Operands) : Prop where
  leftType : P o.leftType
  rightType : P o.rightType
  leftValue : P o.leftValue
  rightValue : P o.rightValue
  rightClass : P o.rightClass

structure ElementMeaning.Has (P : {α : Type} → Query α → Prop) (e : ElementMeaning) : Prop where
  value : e.value.Has P
  key : ∀ k ∈ e.key, k.Has P

mutual

/-- The variables that the type and the value of an expression depend on. -/
def Expr.consults : Expr → List String
  | .var _ n => [n]
  | .array _ es => elementConsults es
  | .augment _ a _ b | .binary _ a _ b => a.consults ++ b.consults
  | .assign _ _ a _ | .unary _ _ a | .update _ _ a _ | .paren _ a | .cast _ _ a => a.consults
  | .ternary _ c b a => c.consults ++ (optionConsults b ++ a.consults)
  | .subscript _ b i => b.consults ++ optionConsults i
  | .sequence _ es => lastConsults es
  | .integer _ _ | .float _ _ | .string _ _ | .boolean _ _ | .null _ | .name _ _ | .call _ _ _
  | .create _ _ _ | .closure _ _ _ | .select _ _ _ | .unknown _ _ _ | .error _ _ => []

def optionConsults : Option Expr → List String
  | none => []
  | some e => e.consults

def elementConsults : List Element → List String
  | [] => []
  | ⟨_, v, k, _, _⟩ :: es => v.consults ++ (optionConsults k ++ elementConsults es)

def lastConsults : List Expr → List String
  | [] => []
  | [e] => e.consults
  | _ :: e :: es => lastConsults (e :: es)

end

namespace QueryClosed

variable {V : String → Prop} {P : {α : Type} → Query α → Prop} {o : Operands} (h : QueryClosed V P)

include h

section Operations

variable (op : Operator)

theorem arithmeticType (l r : TypeUnion) : P (op.arithmeticType o l r) := by
  unfold Operator.arithmeticType
  split
  · exact h.pure _
  · split
    · exact h.bind (h.ofExcept (.writeUnion l)) fun _ => h.bind (h.ofExcept (.writeUnion r)) fun _ =>
        h.bind (h.report (by decide) _ _) fun _ => h.pure _
    · repeat' split
      all_goals exact h.pure _

theorem operatorType (ho : o.Has P) (op : Operator) : P (op.type o) := by
  unfold Operator.type
  split
  any_goals exact h.pure _
  all_goals refine h.bind ho.leftType fun l => h.bind ho.rightType fun r => ?_
  any_goals exact h.pure _
  -- What is left is arithmetic.
  all_goals
    split
    · exact h.arithmeticType _ _ _
    · exact h.pure _

theorem uncovered (l r : Value) : P (op.uncovered o l r) :=
  h.bind (h.report (by decide) _ _) fun _ => h.pure none

theorem equalityValue (l r : Value) : P (op.equalityValue o l r) := by
  unfold Operator.equalityValue
  extract_lets verdict
  have hverdict (same : Option Bool) : P (verdict same) := by
    cases same with
    | none => exact h.uncovered op l r
    | some b => cases op <;> exact h.pure _
  cases op
  all_goals first
    | exact h.bind (h.pure _) hverdict
    | exact h.bind (h.ofExcept (.looseEqual l r)) hverdict

theorem numberValue (a b : Number) : P (op.numberValue o a b) := by
  have finish {r : Except Fault Number} (hr : NumericOnly r) : P (Operator.numberValue.finish r) :=
    h.ofExcept (hr.bind fun n => (NumericOnly.ofNumber n).map some)
  unfold Operator.numberValue
  split
  · exact finish (.lift _ _ a b)
  · exact finish (.lift _ _ a b)
  · exact finish (.lift _ _ a b)
  · split
    · exact h.bind (h.report (by decide) _ _) fun _ => h.pure none
    · exact finish (.div a b)
  · split
    · exact h.pure none
    · exact finish (.ok _)

theorem moduloValue (l r : Value) : P (Operator.moduloValue o l r) := by
  refine h.bind (h.ofExcept (.toInt? l)) fun a => h.bind (h.ofExcept (.toInt? r)) fun b => ?_
  split
  · split
    · exact h.bind (h.report (by decide) _ _) fun _ => h.pure none
    · exact h.pure _
  · exact h.pure none

theorem arithmeticValue (l r : Value) : P (op.arithmeticValue o l r) := by
  unfold Operator.arithmeticValue
  split
  · exact h.pure _
  · exact h.pure none
  · exact h.pure none
  · split
    · exact h.moduloValue l r
    · refine h.bind (h.ofExcept (.toNumber? l)) fun a => h.bind (h.ofExcept (.toNumber? r)) fun b => ?_
      split
      · exact h.numberValue op _ _
      · exact h.pure none

theorem instanceValue (ho : o.Has P) : P (Operator.instanceValue o) := by
  refine h.bind ho.rightClass fun c => h.bind ho.leftType fun u => ?_
  split
  · exact h.bind (h.report (by decide) _ _) fun _ => h.pure none
  · exact h.pure none
  · refine h.bind (h.ask fun _ _ => State.derives_of_bearings) fun derives => ?_
    dsimp only
    repeat' split
    all_goals exact h.pure _

theorem onValues (ho : o.Has P) {f : Value → Value → Query (Option Value)}
    (hf : ∀ l r, P (f l r)) : P (Operator.onValues o f) := by
  refine h.bind ho.leftValue fun l => h.bind ho.rightValue fun r => ?_
  split
  · exact hf _ _
  · exact h.pure none

theorem connectiveValue (ho : o.Has P) (decisive : Bool) : P (Operator.connectiveValue decisive o) := by
  refine h.bind ho.leftValue fun l => ?_
  split
  · exact h.pure _
  · refine h.bind ho.rightValue fun r => ?_
    repeat' split
    all_goals exact h.pure _

theorem operatorValue (ho : o.Has P) (op : Operator) : P (op.value o) := by
  cases op with
  | greater | less | greaterOrEqual | lessOrEqual =>
    refine h.onValues ho fun l r => ?_
    unfold Operator.orderingValue
    split
    · exact h.pure _
    · exact h.pure _
    · exact h.uncovered _ l r
  | spaceship =>
    refine h.onValues ho fun l r => ?_
    unfold Operator.spaceshipValue
    split
    · exact h.pure _
    · exact h.pure _
    · exact h.uncovered _ l r
  | equal | notEqual | identical | notIdentical => exact h.onValues ho (h.equalityValue _)
  | wordAnd | boolAnd => exact h.connectiveValue ho false
  | wordOr | boolOr => exact h.connectiveValue ho true
  | wordXor => exact h.onValues ho fun _ _ => h.pure _
  | add | subtract | multiply | power | divide | modulo => exact h.onValues ho (h.arithmeticValue _)
  | concat => exact h.onValues ho fun l r => h.ofExcept (.concatValue l r)
  | bitAnd | bitOr | bitXor | shiftLeft | shiftRight =>
    refine h.onValues ho fun l r => ?_
    unfold Operator.bitwiseValue
    split
    · exact h.pure _
    · exact h.uncovered _ l r
  | coalesce =>
    refine h.bind ho.leftValue fun l => ?_
    split
    · exact h.pure none
    · exact ho.rightValue
    · exact h.pure _
  | instanceOf => exact h.instanceValue ho

end Operations

section Meanings

variable {m : Meaning} {es : List ElementMeaning}

theorem withValue {α : Type} {q : Query (Option Value)} {f : Value → Query (Option α)}
    (hq : P q) (hf : ∀ v, P (f v)) : P (Meaning.withValue q f) := by
  refine h.bind hq fun v => ?_
  cases v with
  | none => exact h.pure none
  | some v => exact hf v

theorem operation (r : Range) (token : String) (ho : o.Has P) : (Meaning.operation r token o).Has P := by
  unfold Meaning.operation
  split
  · next hop => exact ⟨h.unrecognized r hop, h.unrecognized r hop⟩
  · exact ⟨h.operatorType ho _, h.operatorValue ho _⟩

theorem unary (op : String) (hm : m.Has P) : (Meaning.unary op m).Has P := by
  refine ⟨?_, h.withValue hm.value fun v => h.ofExcept (.unaryValue op v)⟩
  unfold Meaning.unary Meaning.unaryType
  split
  · exact h.pure _
  · split
    · exact h.pure _
    · split
      · exact hm.type
      · refine h.bind hm.type fun u => ?_
        repeat' split
        all_goals exact h.pure _

theorem update (hm : m.Has P) : (Meaning.update m).Has P := by
  refine ⟨h.bind hm.type fun u => ?_, h.pure none⟩
  repeat' split
  all_goals exact h.pure _

theorem ternary {c a : Meaning} {b : Option Meaning} (hc : c.Has P)
    (hb : ∀ m ∈ b, m.Has P) (ha : a.Has P) : (Meaning.ternary c b a).Has P := by
  cases b with
  | none =>
    refine ⟨?_, h.withValue hc.value fun v => ?_⟩
    · exact h.bind hc.value fun _ => h.bind hc.type fun _ => h.bind (h.pure _) fun _ =>
        h.bind ha.type fun _ => h.pure _
    · split
      · exact h.pure _
      · exact ha.value
  | some m =>
    have hm := hb m rfl
    refine ⟨?_, h.withValue hc.value fun v => ?_⟩
    · exact h.bind hc.value fun _ => h.bind hm.type fun _ => h.bind ha.type fun _ => h.pure _
    · split
      · exact hm.value
      · exact ha.value

theorem call (name : Option String) : (Meaning.call name).Has P := by
  refine ⟨?_, h.pure none⟩
  cases name with
  | none => exact h.pure none
  | some n =>
    refine h.ask fun s t hst => ?_
    rw [State.resolveFunction_of_bearings hst, State.returnType_of_bearings hst]

theorem create (name : Option String) : (Meaning.create name).Has P := by
  cases name with
  | none => exact ⟨h.pure _, h.pure none⟩
  | some n =>
    refine ⟨h.ask fun s t hst => ?_, h.ask fun s t hst => ?_⟩
    · rw [State.resolveClass_of_bearings hst]
    · rw [State.resolveClass_of_bearings hst]

theorem cast (word : String) (hm : m.Has P) : (Meaning.cast word m).Has P := by
  refine ⟨h.pure _, h.withValue hm.value fun v => ?_⟩
  split
  · exact h.pure none
  · exact h.ofExcept (.castValue _ v)

theorem key {m : Option Meaning} (hm : ∀ k ∈ m, k.Has P) : P (Meaning.key m) := by
  cases m with
  | none => exact h.pure _
  | some k =>
    refine h.bind (hm k rfl).value fun v => ?_
    cases v with
    | none => exact h.pure _
    | some v =>
      refine h.bind (h.ofExcept (.toKey? v)) fun key => ?_
      split <;> exact h.pure _

theorem subscript {b : Meaning} {i : Option Meaning} (hb : b.Has P)
    (hi : ∀ m ∈ i, m.Has P) : (Meaning.subscript b i).Has P := by
  have hvalue : P (Meaning.subscript b i).value := by
    cases i with
    | none => exact h.pure none
    | some i =>
      refine h.bind hb.value fun v => h.bind (hi i rfl).value fun w => ?_
      split
      · exact h.ofExcept (.elementAt? _ _)
      · exact h.pure none
  refine ⟨h.bind hvalue fun v => ?_, hvalue⟩
  cases v with
  | some v => exact h.pure _
  | none =>
    refine h.bind hb.type fun u => ?_
    split
    · exact h.bind (h.key hi) fun _ => h.pure _
    · exact h.pure none

theorem valueFrom (hes : ∀ e ∈ es, e.Has P) (next : Int)
    (entries : List (ArrayKey × Value)) : P (ArrayLiteral.valueFrom next entries es) := by
  induction es generalizing next entries with
  | nil => exact h.pure _
  | cons e es ih =>
    have he := hes e mem_cons_self
    rw [ArrayLiteral.valueFrom]
    split
    · exact h.pure none
    · refine h.bind he.value.value fun v => ?_
      split
      · exact h.pure none
      · refine h.bind (h.key he.key) fun k => ?_
        split
        · exact h.pure none
        · exact ih (fun e h => hes e (mem_cons_of_mem _ h)) _ _

theorem scan (hes : ∀ e ∈ es, e.Has P) (s : ArrayLiteral.Scan) : P (ArrayLiteral.scan s es) := by
  induction es generalizing s with
  | nil => exact h.pure s
  | cons e es ih =>
    have he := hes e mem_cons_self
    refine h.bind (h.bind he.value.type fun u => ?_) fun s =>
      ih (fun e h => hes e (mem_cons_of_mem _ h)) s
    split
    · exact h.pure _
    · refine h.bind (h.key he.key) fun k => ?_
      split <;> exact h.pure _

theorem arrayLiteral (hes : ∀ e ∈ es, e.Has P) : (ArrayLiteral.meaning es).Has P := by
  have hvalue := h.valueFrom hes 0 []
  refine ⟨h.bind hvalue fun v => ?_, hvalue⟩
  cases v with
  | some v => exact h.pure _
  | none => exact h.bind (h.scan hes _) fun _ => h.pure _

theorem unknown : Meaning.unknown.Has P := ⟨h.pure none, h.pure none⟩

theorem ofExprs (r : Range) (a b : Expr) {n : Meaning} (hm : m.Has P) (hn : n.Has P) :
    (Operands.ofExprs r a b m n).Has P :=
  ⟨hm.type, hn.type, hm.value, hn.value, h.ask fun _ _ hst => by rw [State.resolveClass_of_bearings hst]⟩

end Meanings

end QueryClosed

section Expressions

variable {V : String → Prop} {P : {α : Type} → Query α → Prop}

mutual

/-- Whatever can be asked about an expression has every property that passes on from its parts, if the
questions about the variables it consults have it. -/
theorem Expr.meaning_induction (h : QueryClosed V P) (e : Expr) (he : ∀ x ∈ e.consults, V x) :
    e.meaning.Has P := by
  cases e with
  | var r n =>
    have hn : V n := he n (by simp [Expr.consults])
    exact ⟨h.variableType r n hn, h.variableValue r n hn⟩
  | integer _ n =>
    have hn := NumericOnly.ofNumber (.int n)
    exact ⟨h.ofExcept (hn.map _), h.ofExcept (hn.map _)⟩
  | float _ x => exact ⟨h.pure _, h.pure _⟩
  | string _ s => cases s <;> exact ⟨h.pure _, h.pure _⟩
  | boolean _ b => exact ⟨h.pure _, h.pure _⟩
  | null _ => exact ⟨h.pure _, h.pure _⟩
  | name _ n =>
    exact ⟨h.ask fun _ _ hst => by rw [State.nameType?_of_bearings hst],
      h.ask fun _ _ hst => by rw [State.nameValue?_of_bearings hst]⟩
  | array _ es =>
    exact h.arrayLiteral (elementMeanings_induction h es he)
  | assign _ _ b _ =>
    exact b.meaning_induction h he
  | augment r a op b | binary r a op b =>
    rw [Expr.consults, forall_mem_append] at he
    exact h.operation r op (h.ofExprs r a b (a.meaning_induction h he.1) (b.meaning_induction h he.2))
  | unary _ op a =>
    exact h.unary op (a.meaning_induction h he)
  | update _ _ a _ =>
    exact h.update (a.meaning_induction h he)
  | paren _ a =>
    exact a.meaning_induction h he
  | ternary _ c b a =>
    rw [Expr.consults, forall_mem_append, forall_mem_append] at he
    exact h.ternary (c.meaning_induction h he.1) (optionMeaning_induction h b he.2.1)
      (a.meaning_induction h he.2.2)
  | call _ f _ => exact h.call _
  | create _ c _ => exact h.create _
  | cast _ t a =>
    exact h.cast t (a.meaning_induction h he)
  | subscript _ b i =>
    rw [Expr.consults, forall_mem_append] at he
    exact h.subscript (b.meaning_induction h he.1) (optionMeaning_induction h i he.2)
  | sequence _ es =>
    exact lastMeaning_induction h es he
  | closure _ _ _ => exact ⟨h.pure _, h.pure none⟩
  | select _ _ _ | unknown _ _ _ | error _ _ => exact h.unknown

theorem optionMeaning_induction (h : QueryClosed V P) (e : Option Expr) (he : ∀ x ∈ optionConsults e, V x) :
    ∀ m ∈ optionMeaning e, m.Has P := by
  cases e with
  | none =>
    intro m hm
    cases hm
  | some e =>
    intro m hm
    cases hm
    exact e.meaning_induction h he

theorem elementMeanings_induction (h : QueryClosed V P) (es : List Element)
    (hes : ∀ x ∈ elementConsults es, V x) : ∀ m ∈ elementMeanings es, m.Has P := by
  cases es with
  | nil =>
    intro m hm
    cases hm
  | cons e es =>
    obtain ⟨_, v, k, _, _⟩ := e
    rw [elementConsults, forall_mem_append, forall_mem_append] at hes
    intro m hm
    rcases mem_cons.1 hm with rfl | hm
    · exact ⟨v.meaning_induction h hes.1, optionMeaning_induction h k hes.2.1⟩
    · exact elementMeanings_induction h es hes.2.2 m hm

theorem lastMeaning_induction (h : QueryClosed V P) (es : List Expr) (hes : ∀ x ∈ lastConsults es, V x) :
    (lastMeaning es).Has P := by
  match es with
  | [] => exact h.unknown
  | [e] =>
    exact e.meaning_induction h hes
  | _ :: e :: es =>
    exact lastMeaning_induction h (e :: es) hes

end

end Expressions

end PhpFlow
