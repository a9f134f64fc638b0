import PhpFlow.Proofs.Locality

/-!
# Folding is monotone

Whoever knows more folds more: an expression that folds to a constant keeps it when more variables become
known, unless the left operand of a connective was unknown and now comes to a number that is too large. This
is so for expressions whose value does not hang on a type.
-/
namespace PhpFlow

def KnownAlso {α : Type} (a b : Option α) : Prop := ∀ v, a = some v → b = some v

/-- In `t` names stand for the same as in `s`, and each variable whose value is known in `s` has it in `t`. -/
structure State.KnownIn (s t : State) : Prop where
  names : t.names = s.names
  values : ∃ sc sc', s.currentScope = .ok sc ∧ t.currentScope = .ok sc' ∧
    ∀ x, KnownAlso ((sc.var? x).bind (·.flowValue)) ((sc'.var? x).bind (·.flowValue))

theorem State.bearings_of_names {s t : State} (h : t.names = s.names) : t.bearings = s.bearings := by
  injection h with hsymbols hnamespace huses hclass
  simp only [bearings, hsymbols, hnamespace, huses, hclass]

namespace Query

variable {α β : Type} {s t : State} {D : Prop} {P : α → Prop} {P' : β → Prop}

def Steady (s t : State) (q : Query α) : Prop := (q t).1 = (q s).1

/-- An answer with the property stays so, or `D` holds and there is a fault. -/
def Keeps (s t : State) (D : Prop) (P : α → Prop) (q : Query α) : Prop :=
  ∀ a, P a → (q s).1 = .ok a → (q t).1 = .ok a ∨ D ∧ ∃ f, (q t).1 = .error f

def Stays (s t : State) (D : Prop) (q : Query (Option α)) : Prop := q.Keeps s t D fun a => a.isSome

theorem fst_bind (q : Query α) (f : α → Query β) :
    ((q >>= f) s).1 = (q s).1.bind fun a => (f a s).1 := by
  change (Query.bind q f s).1 = _
  unfold Query.bind
  split
  · next h => rw [h]; rfl
  · next h => rw [h]; rfl

theorem exists_of_bind_ok {q : Query α} {f : α → Query β} {b : β} (h : ((q >>= f) s).1 = .ok b) :
    ∃ a, (q s).1 = .ok a ∧ (f a s).1 = .ok b := by
  rw [fst_bind] at h
  cases ha : (q s).1 with
  | error e =>
    rw [ha] at h
    cases h
  | ok a => exact ⟨a, rfl, by rwa [ha] at h⟩

theorem queryClosed_steady (h : t.bearings = s.bearings) : QueryClosed (fun _ => False) (Steady s t) where
  pure _ := rfl
  bind {_ _ q f} hq hf := by
    rw [Steady, fst_bind, fst_bind, hq]
    cases (q s).1 with
    | error e => rfl
    | ok a => exact hf a
  ask hf := congrArg Except.ok (hf s t h)
  ofExcept _ := rfl
  report _ _ _ := rfl
  unrecognized _ _ _ := rfl
  variableType _ _ hn := hn.elim
  variableValue _ _ hn := hn.elim

theorem Steady.keeps {q : Query α} (hq : q.Steady s t) : q.Keeps s t D P :=
  fun _ _ h => .inl (hq.trans h)

/-- If the first answer says nothing, neither must the last. -/
theorem Keeps.bind {q : Query α} {f : α → Query β} (hq : q.Keeps s t D P)
    (hf : ∀ a, P a → (f a).Keeps s t D P') (hdull : ∀ a b, ¬P a → (q s).1 = .ok a → (f a s).1 = .ok b → ¬P' b) :
    (q >>= f).Keeps s t D P' := by
  intro b hb hs
  obtain ⟨a, ha, hfs⟩ := exists_of_bind_ok hs
  have hP : P a := Classical.byContradiction fun hP => hdull a b hP ha hfs hb
  rw [fst_bind]
  rcases hq a hP ha with h | ⟨hD, e, he⟩
  · rw [h]
    exact hf a hP b hb hfs
  · rw [he]
    exact .inr ⟨hD, e, rfl⟩

theorem Stays.bind {q : Query (Option α)} {f : Option α → Query β} (hq : q.Stays s t D)
    (hf : ∀ v, (f (some v)).Keeps s t D P') (hnone : (q s).1 = .ok none → ∀ b, (f none s).1 = .ok b → ¬P' b) :
    (q >>= f).Keeps s t D P' := by
  refine Keeps.bind hq (fun a ha => ?_) fun a b ha hq hb => ?_
  · cases a with
    | none => cases ha
    | some v => exact hf v
  · cases a with
    | none => exact hnone hq b hb
    | some v => exact absurd rfl ha

theorem pure_none (b : Option β) (h : ((Pure.pure none : Query (Option β)) s).1 = .ok b) : ¬b.isSome := by
  cases h
  nofun

end Query

open Query (Stays Steady)

variable {s t : State} {D : Prop}

namespace Operator

variable {o : Operands} {op : Operator}

def isConnective : Operator → Bool
  | wordAnd | boolAnd | wordOr | boolOr => true
  | _ => false

theorem stays_onValues (hl : o.leftValue.Stays s t D) (hr : o.rightValue.Stays s t D)
    {f : Value → Value → Query (Option Value)} (hf : ∀ l r, (f l r).Steady s t) :
    (onValues o f).Stays s t D := by
  refine hl.bind (fun l => hr.bind (fun r => (hf l r).keeps) fun _ => Query.pure_none) fun _ b hb => ?_
  obtain ⟨r, -, hnone⟩ := Query.exists_of_bind_ok hb
  exact Query.pure_none b hnone

/-- The right operand may decide where the left one is unknown, and then the left one may become a fault. -/
theorem stays_connectiveValue (decisive : Bool) (hl : o.leftValue.Stays s t D) (hr : o.rightValue.Stays s t D)
    (hD : (o.leftValue s).1 = .ok none → ∀ f, (o.leftValue t).1 = .error f → D) :
    (connectiveValue decisive o).Stays s t D := by
  by_cases hnone : (o.leftValue s).1 = .ok none
  · intro v hv hs
    obtain ⟨l, hl', hs⟩ := Query.exists_of_bind_ok hs
    cases hnone.symm.trans hl'
    obtain ⟨r, hr', hs⟩ := Query.exists_of_bind_ok hs
    have hdecides : r.map Value.truth = some decisive ∧ v = some (.bool decisive) := by
      split at hs
      · next h =>
        cases hs
        exact ⟨h, rfl⟩
      · cases hs
        cases hv
    obtain ⟨hdecides, rfl⟩ := hdecides
    rw [connectiveValue, Query.fst_bind]
    cases hleft : (o.leftValue t).1 with
    | error f => exact .inr ⟨hD hnone f hleft, f, rfl⟩
    | ok l =>
      dsimp only [Except.bind]
      split
      · exact .inl rfl
      · rw [Query.fst_bind]
        have hsome : r.isSome := by cases r <;> simp_all
        rcases hr r hsome hr' with h | ⟨hD, f, hf⟩
        · rw [h]
          dsimp only [Except.bind]
          rw [if_pos hdecides]
          exact .inl rfl
        · rw [hf]
          exact .inr ⟨hD, f, rfl⟩
  · refine hl.bind (fun l => ?_) fun h => absurd h hnone
    split
    · exact Steady.keeps rfl
    · refine hr.bind (fun r => ?_) fun _ b hb => ?_
      · split <;> exact Steady.keeps rfl
      · rw [if_neg nofun, if_neg (by simp)] at hb
        exact Query.pure_none b hb

/-- The value of all other operations comes from the values of both operands. -/
theorem value_eq_onValues (hc : ¬op.isConnective) (hop : op ≠ instanceOf) (hop' : op ≠ coalesce) :
    op.value o = onValues o fun l r =>
      op.value (.constant o.range (some l) (some r) none none none o.leftVariable o.rightVariable) := by
  cases op <;> first | rfl | contradiction

theorem stays_value (h : t.bearings = s.bearings) (hl : o.leftValue.Stays s t D) (hr : o.rightValue.Stays s t D)
    (hop : op ≠ instanceOf)
    (hD : op.isConnective → (o.leftValue s).1 = .ok none → ∀ f, (o.leftValue t).1 = .error f → D) :
    (op.value o).Stays s t D := by
  by_cases hc : op.isConnective
  · cases op <;> first
      | exact stays_connectiveValue _ hl hr (hD hc)
      | cases hc
  by_cases hop' : op = coalesce
  · subst hop'
    refine hl.bind (fun l => ?_) fun _ => Query.pure_none
    cases l with
    | null => exact hr
    | _ => exact Steady.keeps rfl
  rw [value_eq_onValues hc hop hop']
  refine stays_onValues hl hr fun l r => (Query.queryClosed_steady h).operatorValue ?_ op
  exact ⟨rfl, rfl, rfl, rfl, rfl⟩

end Operator

namespace Meaning

theorem stays_withValue {α : Type} {q : Query (Option Value)} (hq : q.Stays s t D)
    {f : Value → Query (Option α)} (hf : ∀ v, (f v).Stays s t D) : (withValue q f).Stays s t D :=
  hq.bind hf fun _ => Query.pure_none

theorem stays_ofVariable (h : s.KnownIn t) (r : Range) (name : String) :
    (ofVariable r name).value.Stays s t D := by
  obtain ⟨sc, sc', hsc, hsc', hknown⟩ := h.values
  have hs : ((ofVariable r name).value s).1 = .ok ((sc.var? name).bind (·.flowValue)) := by
    simp [ofVariable, Query.guarded, Query.askFault, hsc, bind, Except.bind, pure, Except.pure]
  have ht : ((ofVariable r name).value t).1 = .ok ((sc'.var? name).bind (·.flowValue)) := by
    simp [ofVariable, Query.guarded, Query.askFault, hsc', bind, Except.bind, pure, Except.pure]
  intro a ha hv
  obtain ⟨v, rfl⟩ := Option.isSome_iff_exists.mp ha
  exact .inl (ht.trans (congrArg _ (hknown name v (Except.ok.inj (hs.symm.trans hv)))))

theorem keeps_key (h : t.bearings = s.bearings) {m : Option Meaning} (hm : ∀ i ∈ m, i.value.Stays s t D) :
    (key m).Keeps s t D (· ≠ .unknown) := by
  cases m with
  | none => exact Steady.keeps rfl
  | some m =>
    refine (hm m rfl).bind (fun v => Steady.keeps ?_) fun _ b hb => ?_
    · refine (Query.queryClosed_steady h).bind rfl fun k => ?_
      cases k <;> rfl
    · cases hb
      exact fun h => h rfl

theorem stays_subscript {base : Meaning} {index : Option Meaning} (hb : base.value.Stays s t D)
    (hi : ∀ i ∈ index, i.value.Stays s t D) : (subscript base index).value.Stays s t D := by
  cases index with
  | none => exact Steady.keeps rfl
  | some i =>
    refine hb.bind (fun b => (hi i rfl).bind (fun v => Steady.keeps rfl) fun _ => Query.pure_none)
      fun _ b hb => ?_
    obtain ⟨v, -, hnone⟩ := Query.exists_of_bind_ok hb
    exact Query.pure_none b hnone

end Meaning

/-- An array literal stays constant; more known keys do no harm to the others. -/
theorem ArrayLiteral.stays_valueFrom (h : t.bearings = s.bearings) (es : List ElementMeaning)
    (hes : ∀ e ∈ es, e.value.value.Stays s t D ∧ ∀ k ∈ e.key, k.value.Stays s t D) (next : Int)
    (entries : List (ArrayKey × Value)) : (valueFrom next entries es).Stays s t D := by
  induction es generalizing next entries with
  | nil => exact Steady.keeps rfl
  | cons e es ih =>
    obtain ⟨hvalue, hkey⟩ := hes e List.mem_cons_self
    unfold valueFrom
    split
    · exact Steady.keeps rfl
    · refine hvalue.bind (fun v => (Meaning.keeps_key h hkey).bind (fun k _ => ?_) fun k b hk _ hb => ?_)
        fun _ => Query.pure_none
      · split
        · exact Steady.keeps rfl
        · exact ih (fun e' he' => hes e' (List.mem_cons_of_mem _ he')) _ _
      · obtain rfl := Classical.not_not.mp hk
        exact Query.pure_none b hb

mutual

/-- The value of the expression does not hang on any type. -/
def Expr.isTypeFree : Expr → Bool
  | .augment _ a op b | .binary _ a op b =>
    Operator.ofToken? op != some .instanceOf && a.isTypeFree && b.isTypeFree
  | .assign _ _ b _ => b.isTypeFree
  | .unary _ _ a | .paren _ a | .cast _ _ a => a.isTypeFree
  | .ternary _ c b a => c.isTypeFree && optionIsTypeFree b && a.isTypeFree
  | .subscript _ b i => b.isTypeFree && optionIsTypeFree i
  | .array _ es => elementsAreTypeFree es
  | .sequence _ es => allAreTypeFree es
  | _ => true

def optionIsTypeFree : Option Expr → Bool
  | none => true
  | some e => e.isTypeFree

def elementsAreTypeFree : List Element → Bool
  | [] => true
  | ⟨_, v, k, _, _⟩ :: es => v.isTypeFree && optionIsTypeFree k && elementsAreTypeFree es

def allAreTypeFree : List Expr → Bool
  | [] => true
  | e :: es => e.isTypeFree && allAreTypeFree es

end

mutual

def Expr.deciders : Expr → List Expr
  | .augment _ a op b | .binary _ a op b =>
    (if (Operator.ofToken? op).any Operator.isConnective then [a] else []) ++ (a.deciders ++ b.deciders)
  | .assign _ _ a _ | .unary _ _ a | .paren _ a | .cast _ _ a => a.deciders
  | .ternary _ c b a => c.deciders ++ (optionDeciders b ++ a.deciders)
  | .subscript _ b i => b.deciders ++ optionDeciders i
  | .array _ es => elementDeciders es
  | .sequence _ es => allDeciders es
  | _ => []

def optionDeciders : Option Expr → List Expr
  | none => []
  | some e => e.deciders

def elementDeciders : List Element → List Expr
  | [] => []
  | ⟨_, v, k, _, _⟩ :: es => v.deciders ++ (optionDeciders k ++ elementDeciders es)

def allDeciders : List Expr → List Expr
  | [] => []
  | e :: es => e.deciders ++ allDeciders es

end

theorem Meaning.stays_operation (h : t.bearings = s.bearings) {r : Range} {token : String} {o : Operands}
    (hl : o.leftValue.Stays s t D) (hr : o.rightValue.Stays s t D)
    (htoken : Operator.ofToken? token ≠ some .instanceOf)
    (hD : (Operator.ofToken? token).any Operator.isConnective →
      (o.leftValue s).1 = .ok none → ∀ f, (o.leftValue t).1 = .error f → D) :
    (operation r token o).value.Stays s t D := by
  unfold operation
  split
  · exact Steady.keeps rfl
  · next op hop =>
    rw [hop] at htoken hD
    exact Operator.stays_value h hl hr (fun he => htoken (congrArg some he)) hD

/-- `D` holds if one of the operands becomes a fault. -/
def Accounts (s t : State) (D : Prop) (ls : List Expr) : Prop :=
  ∀ l ∈ ls, (l.value s).1 = .ok none → ∀ f, (l.value t).1 = .error f → D

theorem accounts_append {x y : List Expr} : Accounts s t D (x ++ y) ↔ Accounts s t D x ∧ Accounts s t D y :=
  List.forall_mem_append

mutual

/-- The value of an expression stays when more becomes known. -/
theorem Expr.stays_value (h : s.KnownIn t) (e : Expr) (he : e.isTypeFree) (hD : Accounts s t D e.deciders) :
    e.meaning.value.Stays s t D := by
  have hnames := State.bearings_of_names h.names
  cases e with
  | var r n => exact Meaning.stays_ofVariable h r n
  | name r n =>
    exact ((Expr.name r n).meaning_induction (Query.queryClosed_steady hnames) (by simp [Expr.consults])).value.keeps
  | create r c as => exact ((Query.queryClosed_steady hnames).create c.name?).value.keeps
  | array r es =>
    simp only [Expr.isTypeFree, Expr.deciders] at he hD
    exact ArrayLiteral.stays_valueFrom hnames _ (stays_elements h es he hD) _ _
  | assign r a b byRef =>
    simp only [Expr.isTypeFree, Expr.deciders] at he hD
    exact b.stays_value h he hD
  | augment r a op b | binary r a op b =>
    simp only [Expr.isTypeFree, Expr.deciders, Bool.and_eq_true, bne_iff_ne, accounts_append] at he hD
    refine Meaning.stays_operation hnames (a.stays_value h he.1.2 hD.2.1) (b.stays_value h he.2 hD.2.2) he.1.1
      fun hc => hD.1 a ?_
    rw [if_pos hc]
    exact List.mem_singleton_self a
  | unary r op a =>
    simp only [Expr.isTypeFree, Expr.deciders] at he hD
    exact Meaning.stays_withValue (a.stays_value h he hD) fun _ => Steady.keeps rfl
  | paren r a =>
    simp only [Expr.isTypeFree, Expr.deciders] at he hD
    exact a.stays_value h he hD
  | cast r w a =>
    simp only [Expr.isTypeFree, Expr.deciders] at he hD
    refine Meaning.stays_withValue (a.stays_value h he hD) fun v => ?_
    split <;> exact Steady.keeps rfl
  | ternary r c b a =>
    simp only [Expr.isTypeFree, Expr.deciders, Bool.and_eq_true, accounts_append] at he hD
    refine Meaning.stays_withValue (c.stays_value h he.1.1 hD.1) fun v => ?_
    split
    · have hb := stays_option h b he.1.2 hD.2.1
      cases hm : optionMeaning b with
      | none => exact Steady.keeps rfl
      | some m => exact hb m hm
    · exact a.stays_value h he.2 hD.2.2
  | subscript r b i =>
    simp only [Expr.isTypeFree, Expr.deciders, Bool.and_eq_true, accounts_append] at he hD
    exact Meaning.stays_subscript (b.stays_value h he.1 hD.1) (stays_option h i he.2 hD.2)
  | sequence r es =>
    simp only [Expr.isTypeFree, Expr.deciders] at he hD
    exact stays_last h es he hD
  | string r v => cases v <;> exact Steady.keeps rfl
  | integer _ _ | float _ _ | boolean _ _ | null _ | update _ _ _ _ | call _ _ _ | closure _ _ _
  | select _ _ _ | unknown _ _ _ | error _ _ => exact Steady.keeps rfl

theorem stays_option (h : s.KnownIn t) (e : Option Expr) (he : optionIsTypeFree e)
    (hD : Accounts s t D (optionDeciders e)) : ∀ m ∈ optionMeaning e, m.value.Stays s t D := by
  cases e with
  | none =>
    rintro _ ⟨⟩
  | some e =>
    rintro _ ⟨⟩
    exact e.stays_value h he hD

theorem stays_elements (h : s.KnownIn t) (es : List Element) (hes : elementsAreTypeFree es)
    (hD : Accounts s t D (elementDeciders es)) :
    ∀ e ∈ elementMeanings es, e.value.value.Stays s t D ∧ ∀ k ∈ e.key, k.value.Stays s t D := by
  cases es with
  | nil =>
    rintro _ ⟨⟩
  | cons e es =>
    obtain ⟨_, v, k, _, _⟩ := e
    simp only [elementsAreTypeFree, elementDeciders, Bool.and_eq_true, accounts_append] at hes hD
    rintro m (_ | ⟨_, hm⟩)
    · exact ⟨v.stays_value h hes.1.1 hD.1, stays_option h k hes.1.2 hD.2.1⟩
    · exact stays_elements h es hes.2 hD.2.2 m hm

theorem stays_last (h : s.KnownIn t) (es : List Expr) (hes : allAreTypeFree es)
    (hD : Accounts s t D (allDeciders es)) : (lastMeaning es).value.Stays s t D := by
  match es with
  | [] =>
    exact Steady.keeps rfl
  | [e] =>
    simp only [allAreTypeFree, allDeciders, Bool.and_eq_true, accounts_append] at hes hD
    exact e.stays_value h hes.1 hD.1
  | d :: e :: es =>
    rw [allAreTypeFree, Bool.and_eq_true] at hes
    rw [allDeciders, accounts_append] at hD
    exact stays_last h (e :: es) hes.2 hD.2

end

/-- So a constant is still the value where more is known, unless a number becomes too large. -/
theorem Expr.value_stays {e : Expr} (he : e.isTypeFree) (h : s.KnownIn t) {v : Value}
    (hv : (e.value s).1 = .ok (some v)) {w : Option Value} (hw : (e.value t).1 = .ok w) :
    w = some v := by
  rcases e.stays_value (D := True) h he (fun _ _ _ _ _ => trivial) (some v) rfl hv with hb | ⟨-, f, hf⟩
  · exact Except.ok.inj (hw.symm.trans hb)
  · cases hf.symm.trans hw

/-- A constant is still the value where more is known, unless the left operand of a connective in the
expression, which was unknown, has become a number that is too large. -/
theorem Expr.value_or_fault_of_known {e : Expr} (he : e.isTypeFree) (h : s.KnownIn t) {v : Value}
    (hv : (e.value s).1 = .ok (some v)) :
    (e.value t).1 = .ok (some v) ∨
      (∃ l ∈ e.deciders, (l.value s).1 = .ok none ∧ ∃ f, (l.value t).1 = .error f) ∧
        ∃ f, (e.value t).1 = .error f ∧ f.isNumeric := by
  have hstays : e.value.Stays s t
      (∃ l ∈ e.deciders, (l.value s).1 = .ok none ∧ ∃ f, (l.value t).1 = .error f) :=
    e.stays_value h he fun l hl hs f hf => ⟨l, hl, hs, f, hf⟩
  refine (hstays (some v) rfl hv).imp_right ?_
  rintro ⟨hl, f, hf⟩
  exact ⟨hl, f, hf, e.orderly_meaning.value.faults t f hf⟩

abbrev Env := List (String × Value)

def Env.scope (ρ : Env) : Scope where
  handle := 0
  parent := none
  side := .neutral
  vars := ρ.map fun b => ({ name := b.1 } : Variable).write ⟨0, b.2.type, some b.2, none⟩

def State.inEnv (s : State) (ρ : Env) : State :=
  { s with
    arena := ⟨#[some ρ.scope], 1⟩
    frames := []
    fileFrame := { Frame.new none with scopes := [0] } }

theorem State.knownIn_of_empty (σ : State) (ρ : Env) : (σ.inEnv []).KnownIn (σ.inEnv ρ) :=
  ⟨rfl, _, ρ.scope, rfl, rfl, nofun⟩

/-- The connective does not wait for a left operand that becomes known. -/
theorem known_operand_keeps_conjunction :
    let e := Expr.binary .zero (.var .zero "x") "&&" (.boolean .zero false)
    let σ := State.new {} {} none .discarding
    (e.value (σ.inEnv [])).1 = .ok (some (.bool false)) ∧
      (e.value (σ.inEnv [("x", .bool true)])).1 = .ok (some (.bool false)) := by
  intro e σ
  have hv : (e.value (σ.inEnv [])).1 = .ok (some (.bool false)) := rfl
  refine ⟨hv, ?_⟩
  rcases Expr.value_or_fault_of_known rfl (σ.knownIn_of_empty [("x", .bool true)]) hv with hv | ⟨-, f, hf, -⟩
  · exact hv
  · cases hf

/-- A power that becomes too large hides the operand that decides. -/
theorem known_power_faults :
    let e := Expr.binary .zero (.binary .zero (.var .zero "x") "**" (.integer .zero 17)) "&&" (.boolean .zero false)
    let σ := State.new {} {} none .discarding
    (σ.inEnv []).KnownIn (σ.inEnv [("x", .int Number.maxInt)]) ∧ e.isTypeFree ∧
      (e.value (σ.inEnv [])).1 = .ok (some (.bool false)) ∧
      (e.value (σ.inEnv [("x", .int Number.maxInt)])).1.isOk = false := by
  intro e σ
  refine ⟨σ.knownIn_of_empty _, rfl, rfl, ?_⟩
  decide +kernel

end PhpFlow
