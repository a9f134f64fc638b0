import Mathlib.Logic.Relation
import PhpFlow.Proofs.Conditions
import PhpFlow.Proofs.Inhabitants

/-!
# Narrowing loses no value

A condition is built from variables, negation, connectives, tests for null and other parts that narrow
nothing. Whatever values the variables have, as long as their types admit them: in the branch for the
outcome that the condition has, the narrowed types admit them still.
-/
namespace PhpFlow

open List

variable {symbols : SymbolTable} {v : Value} {u : TypeUnion}
variable {o : Bool}

def BranchSide.ofOutcome : Bool → BranchSide
  | true => .onTrue
  | false => .onFalse

theorem BranchSide.flip_ofOutcome (o : Bool) : (ofOutcome o).flip = ofOutcome !o := by
  cases o <;> rfl

theorem BranchSide.ofOutcome_eq_onTrue (o : Bool) : (ofOutcome o == .onTrue) = o := by
  cases o <;> rfl

/-! ## What is left of a type -/

theorem Atom.admits_decided {a : Atom} (h : a.admits symbols v) : (a.decided v.truth).admits symbols v := by
  unfold decided
  split
  · next hbool =>
    cases a with
    | primitive p =>
      obtain rfl : .bool = p := beq_iff_eq.mp hbool
      cases v with
      | bool b => cases b <;> simp [admits, Primitive.admits, Value.truth]
      | _ => cases h
    | _ => cases hbool
  · exact h

/-- The value of a variable is admitted by what its truth leaves of its type. -/
theorem admits_refineTruth {u' : TypeUnion} (h : refineTruth (.ofOutcome o) (some u) = some u')
    (hu : u.admits symbols v) (hv : v.truth = o) : u'.admits symbols v := by
  obtain ⟨a, ha, hadm⟩ := TypeUnion.admits_iff.mp hu
  have hchanged {as : List Atom} (hmem : a.decided o ∈ as)
      (h : refineTruth.changed u as = some u') : u'.admits symbols v := by
    unfold refineTruth.changed at h
    dsimp only at h
    split at h
    · cases h
    · cases h
      exact TypeUnion.admits_ofList.mpr ⟨_, hmem, hv ▸ Atom.admits_decided hadm⟩
  cases o with
  | true =>
    exact hchanged (mem_map_of_mem (mem_filter.mpr ⟨ha, a.canBeTrue_of_admits hadm hv⟩)) h
  | false =>
    exact hchanged (mem_map_of_mem (mem_filter.mpr ⟨ha, a.canBeFalse_of_admits hadm hv⟩)) h

theorem admits_withoutNull (hu : u.admits symbols v) (hv : v.isNull = false) :
    u.withoutNull.admits symbols v := by
  obtain ⟨a, ha, hadm⟩ := TypeUnion.admits_iff.mp hu
  refine TypeUnion.admits_filter.mpr ⟨a, ha, ?_, hadm⟩
  cases a with
  | primitive p =>
    cases p with
    | null =>
      rw [Atom.admits] at hadm
      cases v with
      | null => cases hv
      | _ => cases hadm
    | _ => rfl
  | _ => rfl

theorem admits_filter_canBeFalse (hu : u.admits symbols v) (hv : v.truth = false) :
    (u.filter Atom.canBeFalse).admits symbols v := by
  obtain ⟨a, ha, hadm⟩ := TypeUnion.admits_iff.mp hu
  exact TypeUnion.admits_filter.mpr ⟨a, ha, a.canBeFalse_of_admits hadm hv, hadm⟩

/-- What a test for null finds about a value. -/
structure NullVerdict (strict isNull : Bool) (v : Value) : Prop where
  null : isNull → strict → v = .null
  falsy : isNull → v.truth = false
  other : isNull = false → v.isNull = false

/-- The value of a variable is admitted by what a test for null leaves of its type. -/
theorem admits_refineNull {strict isNull : Bool} (hu : u.admits symbols v)
    (hv : NullVerdict strict isNull v) : (refineNull strict isNull u).admits symbols v := by
  cases isNull with
  | false => exact admits_withoutNull hu (hv.other rfl)
  | true =>
    cases strict with
    | true =>
      rw [hv.null rfl rfl]
      exact TypeUnion.admits_prim
    | false =>
      have hfalsy := admits_filter_canBeFalse hu (hv.falsy rfl)
      have hsome : (u.filter Atom.canBeFalse).isEmpty = false := by
        obtain ⟨a, ha, -⟩ := TypeUnion.admits_iff.mp hfalsy
        simpa [TypeUnion.isEmpty] using ne_nil_of_mem ha
      simpa [refineNull, hsome] using hfalsy

def Operator.Compares (op : Operator) (v w : Value) (o : Bool) : Prop :=
  if op.isStrict then v.identical w = some (op.isEquality == o)
  else v.looseEqual w = .ok (some (op.isEquality == o))

/-- The value is loosely equal to null; the false text `"0"` is not. -/
def Value.isLooselyNull : Value → Bool
  | .string s => s == ""
  | v => !v.truth

theorem Value.looseEqual_null (v : Value) : v.looseEqual .null = .ok (some v.isLooselyNull) := by
  cases v <;> simp [looseEqual, isLooselyNull, truth, isNullOrBool]

theorem Value.null_looseEqual (v : Value) : Value.null.looseEqual v = .ok (some v.isLooselyNull) := by
  cases v <;> simp [looseEqual, isLooselyNull, truth]

theorem nullVerdict_strict (v : Value) : NullVerdict true v.isNull v := by
  cases v <;> constructor <;> simp [Value.isNull, Value.truth]

theorem nullVerdict_loose (v : Value) : NullVerdict false v.isLooselyNull v := by
  cases v <;> constructor <;> simp_all [Value.isLooselyNull, Value.isNull, Value.truth]

/-- A comparison with null on either side is a test for null. -/
theorem Operator.Compares.nullVerdict {op : Operator} (h : op.Compares v .null o ∨ op.Compares .null v o) :
    NullVerdict op.isStrict (op.isEquality == o) v := by
  unfold Compares at h
  cases hstrict : op.isStrict with
  | true =>
    have hnull : v.identical .null = some v.isNull ∧ Value.null.identical v = some v.isNull := by
      cases v <;> exact ⟨rfl, rfl⟩
    rw [hstrict, if_pos rfl, if_pos rfl, hnull.1, hnull.2, or_self, Option.some.injEq] at h
    exact h ▸ nullVerdict_strict v
  | false =>
    rw [hstrict, if_neg (by simp), if_neg (by simp), v.looseEqual_null, v.null_looseEqual, or_self,
      Except.ok.injEq, Option.some.injEq] at h
    exact h ▸ nullVerdict_loose v

/-! ## Conditions -/

def Expr.isNullLiteral (e : Expr) : Bool :=
  match e.unwrap with
  | .null _ => true
  | .name _ n => Text.lower (withoutLeadingSlashes n) = "null"
  | _ => false

theorem Expr.variableName?_of_isNullLiteral {e : Expr} (h : e.isNullLiteral) : e.variableName? = none := by
  unfold isNullLiteral at h
  unfold variableName?
  split at h
  · next he => rw [he]
  · next he => rw [he]
  · cases h

def NullTest (a b : Expr) (n : String) : Prop :=
  (a.variableName? = some n ∧ b.isNullLiteral) ∨ (b.variableName? = some n ∧ a.isNullLiteral)

/-- What is not a variable, nor built by negation, a connective or a test for null. -/
def Expr.isOpaque : Expr → Bool
  | .var _ _ | .paren _ _ => false
  | .unary _ op _ => op ≠ "!"
  | .binary _ a token b =>
    match Operator.ofToken? token with
    | none => true
    | some op =>
      !op.isConjunction && !op.isDisjunction &&
        !(op.isComparison && ((a.variableName?.isSome && b.isNullLiteral) ||
          (b.variableName?.isSome && a.isNullLiteral)))
  | _ => true

/-- The condition may have the outcome where the variables have the values `ρ`. Anything may come of what
is opaque. -/
inductive Outcome (ρ : String → Value) : Expr → Bool → Prop
  | truth {r : Range} {n : String} {o : Bool} (h : (ρ n).truth = o) : Outcome ρ (.var r n) o
  | paren {r : Range} {a : Expr} {o : Bool} (ha : Outcome ρ a o) : Outcome ρ (.paren r a) o
  | not {r : Range} {a : Expr} {o : Bool} (ha : Outcome ρ a !o) : Outcome ρ (.unary r "!" a) o
  | and {r : Range} {a b : Expr} {token : String} {op : Operator} {o : Bool}
      (hop : Operator.ofToken? token = some op) (hconj : op.isConjunction) (ha : Outcome ρ a true)
      (hb : Outcome ρ b o) : Outcome ρ (.binary r a token b) o
  | andLeft {r : Range} {a b : Expr} {token : String} {op : Operator}
      (hop : Operator.ofToken? token = some op) (hconj : op.isConjunction) (ha : Outcome ρ a false) :
      Outcome ρ (.binary r a token b) false
  | or {r : Range} {a b : Expr} {token : String} {op : Operator} {o : Bool}
      (hop : Operator.ofToken? token = some op) (hdisj : op.isDisjunction) (ha : Outcome ρ a false)
      (hb : Outcome ρ b o) : Outcome ρ (.binary r a token b) o
  | orLeft {r : Range} {a b : Expr} {token : String} {op : Operator}
      (hop : Operator.ofToken? token = some op) (hdisj : op.isDisjunction) (ha : Outcome ρ a true) :
      Outcome ρ (.binary r a token b) true
  | nullRight {r : Range} {a b : Expr} {token n : String} {op : Operator} {o : Bool}
      (hop : Operator.ofToken? token = some op) (hcomp : op.isComparison) (ha : a.variableName? = some n)
      (hb : b.isNullLiteral) (h : op.Compares (ρ n) .null o) : Outcome ρ (.binary r a token b) o
  | nullLeft {r : Range} {a b : Expr} {token n : String} {op : Operator} {o : Bool}
      (hop : Operator.ofToken? token = some op) (hcomp : op.isComparison) (hb : b.variableName? = some n)
      (ha : a.isNullLiteral) (h : op.Compares .null (ρ n) o) : Outcome ρ (.binary r a token b) o
  | other {c : Expr} (hc : c.isOpaque) (o : Bool) : Outcome ρ c o

def Scope.NarrowedTo (ν : Names) : Scope → Scope → Prop :=
  Relation.ReflTransGen fun sc arm => ∃ c side, Narrows ν c side sc arm

def NarrowsNothing (ν : Names) (sc : Scope) (c : Expr) : Prop :=
  ∀ mid, sc.NarrowedTo ν mid → ∀ side arm, Narrows ν c side mid arm → arm.vars = mid.vars

/-- Conditions built from variables, negation, connectives, tests for null, and what narrows nothing. -/
inductive NullCondition (ν : Names) (sc : Scope) : Expr → Prop
  | var (r : Range) (n : String) : NullCondition ν sc (.var r n)
  | paren {r : Range} {a : Expr} (ha : NullCondition ν sc a) : NullCondition ν sc (.paren r a)
  | not {r : Range} {a : Expr} (ha : NullCondition ν sc a) : NullCondition ν sc (.unary r "!" a)
  | connective {r : Range} {a b : Expr} {token : String} {op : Operator}
      (hop : Operator.ofToken? token = some op) (hconn : op.isConjunction ∨ op.isDisjunction)
      (ha : NullCondition ν sc a) (hb : NullCondition ν sc b) : NullCondition ν sc (.binary r a token b)
  | nullTest {r : Range} {a b : Expr} {token n : String} {op : Operator}
      (hop : Operator.ofToken? token = some op) (hcomp : op.isComparison) (hnull : NullTest a b n) :
      NullCondition ν sc (.binary r a token b)
  | other {c : Expr} (hc : NarrowsNothing ν sc c) : NullCondition ν sc c

/-- The type of every variable, where there is one, admits its value. -/
def Scope.Admits (symbols : SymbolTable) (sc : Scope) (ρ : String → Value) : Prop :=
  ∀ x u, (sc.var? x).bind (·.flowType) = some u → u.admits symbols (ρ x)

namespace Scope.Admits

variable {sc arm : Scope} {ρ : String → Value}

theorem congr (h : sc.Admits symbols ρ) (hvars : arm.vars = sc.vars) : arm.Admits symbols ρ := by
  intro x u hu
  refine h x u ?_
  rwa [Scope.var?, hvars] at hu

/-- A type that admits the value of the variable may take the place of its type. -/
theorem narrowed (h : sc.Admits symbols ρ) {n : String} (hu : u.admits symbols (ρ n)) :
    (sc.narrowed n u).Admits symbols ρ := by
  intro x u' hu'
  have hvar := Scope.var?_updateVar sc (f := fun v => { v with narrowed := some u }) (fun _ => rfl) n x
  rw [Scope.narrowed, hvar] at hu'
  split at hu'
  · next hx =>
    rw [hx]
    cases hu'
    exact hu
  · exact h x u' hu'

end Scope.Admits

namespace Operator

variable {op : Operator}

theorem isComparison_of_connective (h : op.isConjunction ∨ op.isDisjunction) :
    op.isComparison = false ∧ op ≠ instanceOf := by
  cases op <;> simp_all [isConjunction, isDisjunction, isComparison]

theorem connective_of_needsBoth {side : BranchSide} (h : op.needsBoth side) :
    op.isConjunction ∨ op.isDisjunction := by
  simp only [needsBoth, Bool.or_eq_true, Bool.and_eq_true] at h
  exact h.imp And.left And.left

theorem isDisjunction_of_isConjunction (h : op.isConjunction) : op.isDisjunction = false := by
  cases op <;> simp_all [isConjunction, isDisjunction]

/-- A conjunction needs both operands only to hold, a disjunction only to fail. -/
theorem outcome_of_needsBoth {o : Bool} (h : op.needsBoth (.ofOutcome o)) :
    (op.isConjunction → o = true) ∧ (op.isDisjunction → o = false) := by
  cases o with
  | true =>
    have hconj : op.isConjunction := by simpa [needsBoth, BranchSide.ofOutcome] using h
    simp [isDisjunction_of_isConjunction hconj]
  | false =>
    have hdisj : op.isDisjunction := by simpa [needsBoth, BranchSide.ofOutcome] using h
    refine ⟨fun hconj => ?_, fun _ => rfl⟩
    rw [isDisjunction_of_isConjunction hconj] at hdisj
    cases hdisj

theorem needsBoth_of_isComparison (h : op.isComparison) (side : BranchSide) : op.needsBoth side = false := by
  cases op <;> simp_all [needsBoth, isConjunction, isDisjunction, isComparison]

end Operator

section

variable {ν : Names} {r : Range} {a b : Expr} {token : String} {op : Operator} {side : BranchSide}
  {sc arm : Scope}

variable (hop : Operator.ofToken? token = some op)

include hop

/-- A connective narrows by both of its operands or not at all. -/
theorem Narrows.of_connective
    (hconn : op.isConjunction ∨ op.isDisjunction) (h : Narrows ν (.binary r a token b) side sc arm) :
    arm.vars = sc.vars ∨
      (op.needsBoth side ∧ ∃ mid, Narrows ν a side sc mid ∧ Narrows ν b side mid arm) := by
  obtain ⟨hcomp, hinst⟩ := Operator.isComparison_of_connective hconn
  cases h with
  | same hvars => exact .inl hvars
  | both hop' hboth ha hb =>
    rw [hop, Option.some.injEq] at hop'
    exact .inr ⟨hop' ▸ hboth, _, ha, hb⟩
  | null hop' hcomp' =>
    rw [hop, Option.some.injEq] at hop'
    rw [← hop', hcomp] at hcomp'
    cases hcomp'
  | «instance» hop' =>
    rw [hop, Option.some.injEq] at hop'
    exact absurd hop' hinst

/-- A comparison narrows a variable by its test for null or not at all. -/
theorem Narrows.of_comparison (hcomp : op.isComparison)
    (h : Narrows ν (.binary r a token b) side sc arm) :
    arm.vars = sc.vars ∨ ∃ n u, NullTested ν sc a b n ∧ (sc.var? n).bind (·.flowType) = some u ∧
      arm.vars = (sc.narrowed n (refineNull op.isStrict (op.isEquality == (side == .onTrue)) u)).vars := by
  cases h with
  | same hvars => exact .inl hvars
  | both hop' hboth =>
    rw [hop, Option.some.injEq] at hop'
    rw [← hop', Operator.needsBoth_of_isComparison hcomp] at hboth
    cases hboth
  | null hop' _ hnull hv hu hvars =>
    rw [hop, Option.some.injEq] at hop'
    subst hop'
    exact .inr ⟨_, _, hnull, by rw [hv, Option.bind_some, hu], hvars⟩
  | «instance» hop' =>
    rw [hop, Option.some.injEq] at hop'
    rw [hop'] at hcomp
    cases hcomp

theorem Expr.isOpaque_binary :
    (Expr.binary r a token b).isOpaque = (!op.isConjunction && !op.isDisjunction &&
      !(op.isComparison && ((a.variableName?.isSome && b.isNullLiteral) ||
        (b.variableName?.isSome && a.isNullLiteral)))) := by
  rw [Expr.isOpaque, hop]

/-- Both operands have the outcome that a connective has only if they do. -/
theorem Outcome.of_needsBoth {o : Bool} {ρ : String → Value}
    (hboth : op.needsBoth (.ofOutcome o)) (h : Outcome ρ (.binary r a token b) o) :
    Outcome ρ a o ∧ Outcome ρ b o := by
  have hconn := Operator.connective_of_needsBoth hboth
  obtain ⟨hholds, hfails⟩ := Operator.outcome_of_needsBoth hboth
  have hcomp := (Operator.isComparison_of_connective hconn).1
  cases h with
  | and hop' hconj ha hb =>
    rw [hop, Option.some.injEq] at hop'
    obtain rfl := hholds (hop' ▸ hconj)
    exact ⟨ha, hb⟩
  | andLeft hop' hconj =>
    rw [hop, Option.some.injEq] at hop'
    cases hholds (hop' ▸ hconj)
  | or hop' hdisj ha hb =>
    rw [hop, Option.some.injEq] at hop'
    obtain rfl := hfails (hop' ▸ hdisj)
    exact ⟨ha, hb⟩
  | orLeft hop' hdisj =>
    rw [hop, Option.some.injEq] at hop'
    cases hfails (hop' ▸ hdisj)
  | nullRight hop' hcomp' | nullLeft hop' hcomp' =>
    rw [hop, Option.some.injEq] at hop'
    rw [← hop', hcomp] at hcomp'
    cases hcomp'
  | other hc =>
    rw [Expr.isOpaque_binary hop] at hc
    rcases hconn with hconn | hconn <;> simp [hconn] at hc

/-- Where a variable is compared with null, no other is narrowed, and the outcome is about its value. -/
theorem Outcome.nullVerdict {n m : String} {o : Bool} {ρ : String → Value}
    (hcomp : op.isComparison) (hnull : NullTest a b n)
    (htested : NullTested ν sc a b m) (h : Outcome ρ (.binary r a token b) o) :
    NullVerdict op.isStrict (op.isEquality == o) (ρ m) := by
  have hconn {op' : Operator} (hop' : Operator.ofToken? token = some op')
      (h : op'.isConjunction ∨ op'.isDisjunction) : False := by
    rw [hop, Option.some.injEq] at hop'
    rw [hop', (Operator.isComparison_of_connective h).1] at hcomp
    cases hcomp
  cases h with
  | and hop' h | andLeft hop' h => exact (hconn hop' (.inl h)).elim
  | or hop' h | orLeft hop' h => exact (hconn hop' (.inr h)).elim
  | nullRight hop' _ ha hb h =>
    rw [hop, Option.some.injEq] at hop'
    subst hop'
    rcases htested with ⟨hm, -⟩ | ⟨hm, -⟩
    · rw [ha, Option.some.injEq] at hm
      exact Operator.Compares.nullVerdict (.inl (hm ▸ h))
    · rw [Expr.variableName?_of_isNullLiteral hb] at hm
      cases hm
  | nullLeft hop' _ hb ha h =>
    rw [hop, Option.some.injEq] at hop'
    subst hop'
    rcases htested with ⟨hm, -⟩ | ⟨hm, -⟩
    · rw [Expr.variableName?_of_isNullLiteral ha] at hm
      cases hm
    · rw [hb, Option.some.injEq] at hm
      exact Operator.Compares.nullVerdict (.inr (hm ▸ h))
  | other hc =>
    rw [Expr.isOpaque_binary hop] at hc
    rcases hnull with ⟨hn, hlit⟩ | ⟨hn, hlit⟩ <;> simp [hcomp, hn, hlit] at hc

end

/-- Narrowing by the outcome that a condition has keeps the values of all variables admitted. -/
theorem Narrows.admits {ν : Names} {sc : Scope} {c : Expr} (hc : NullCondition ν sc c) {ρ : String → Value}
    {mid arm : Scope} (hmid : sc.NarrowedTo ν mid) (hn : Narrows ν c (.ofOutcome o) mid arm)
    (hadm : mid.Admits ν.symbols ρ) (ho : Outcome ρ c o) : arm.Admits ν.symbols ρ := by
  induction hc generalizing o mid arm with
  | var r n =>
    cases hn with
    | same hvars => exact hadm.congr hvars
    | @truth _ _ _ _ _ v u hv hu hvars =>
      cases hflow : v.flowType with
      | none =>
        rw [hflow] at hu
        cases o <;> cases hu
      | some u₀ =>
        rw [hflow] at hu
        have hu₀ : u₀.admits ν.symbols (ρ n) := hadm n u₀ (by rw [hv, Option.bind_some, hflow])
        cases ho with
        | truth ho => exact (hadm.narrowed (admits_refineTruth hu hu₀ ho)).congr hvars
        | other hc => cases hc
  | paren ha ih =>
    cases hn with
    | same hvars => exact hadm.congr hvars
    | paren hn =>
      cases ho with
      | paren ho => exact ih hmid hn hadm ho
      | other hc => cases hc
  | not ha ih =>
    cases hn with
    | same hvars => exact hadm.congr hvars
    | not hn =>
      rw [BranchSide.flip_ofOutcome] at hn
      cases ho with
      | not ho => exact ih hmid hn hadm ho
      | other hc => cases hc
  | connective hop hconn ha hb iha ihb =>
    rcases hn.of_connective hop hconn with hvars | ⟨hboth, mid', hna, hnb⟩
    · exact hadm.congr hvars
    · obtain ⟨hoa, hob⟩ := ho.of_needsBoth hop hboth
      exact ihb (hmid.tail ⟨_, _, hna⟩) hnb (iha hmid hna hadm hoa) hob
  | nullTest hop hcomp hnull =>
    rcases hn.of_comparison hop hcomp with hvars | ⟨n, u, htested, hu, hvars⟩
    · exact hadm.congr hvars
    · have hverdict := ho.nullVerdict hop hcomp hnull htested
      rw [BranchSide.ofOutcome_eq_onTrue] at hvars
      exact (hadm.narrowed (admits_refineNull (hadm n u hu) hverdict)).congr hvars
  | other hc => exact hadm.congr (hc mid hmid _ arm hn)

/-- Narrowing by truth and by tests for null never excludes a possible value. Unless a number is too large,
there is a branch for either outcome of the condition; and whatever values the variables have that their
types admit, if the condition may have this outcome then the types in the branch admit the values. -/
theorem branch_admits_possible_values {s : State} {h : Handle} {sc : Scope} (w : s.Working h sc)
    {c : Expr} (hc : NullCondition s.names sc c) (o : Bool) :
    (∃ k t arm, c.branch (.ofOutcome o) s = (.ok k, t) ∧ t.arena.scope? k = some arm ∧
      ∀ ρ, sc.Admits s.symbols ρ → Outcome ρ c o → arm.Admits s.symbols ρ) ∨
    ∃ e t, c.branch (.ofOutcome o) s = (.error e, t) ∧ e.isNumeric := by
  rcases (Step.branches_condition c (.ofOutcome o) s h sc w).cases with
    ⟨k, t, hk, -, arm, harm, hn⟩ | ⟨e, t, he, hnum, -⟩
  · exact .inl ⟨k, t, arm, hk, harm, fun ρ hadm ho => hn.admits hc .refl hadm ho⟩
  · exact .inr ⟨e, t, he, hnum⟩

def maybeText : Variable :=
  { name := "x", commentType := some (.ofList [.primitive .string, .primitive .null]) }

def maybeTextFile : State :=
  { State.new {} {} none .discarding with arena := (Arena.empty.add none .neutral [maybeText]).2 }

/-- The condition `$x !== null && strlen($x)`. -/
def hasLength : Expr :=
  .binary .zero (.binary .zero (.var .zero "x") "!==" (.null .zero)) "&&"
    (.call .zero (.name .zero "strlen") [.var .zero "x"])

/-- Where the condition holds null is excluded, and a text that the variable may have is not. -/
theorem hasLength_branch_admits_text :
    ∃ sc, maybeTextFile.Working 0 sc ∧ NullCondition maybeTextFile.names sc hasLength ∧
      sc.Admits {} (fun _ => .string "a") ∧ Outcome (fun _ => .string "a") hasLength true ∧
      ∃ k t arm, hasLength.branch (.ofOutcome true) maybeTextFile = (.ok k, t) ∧
        t.arena.scope? k = some arm ∧ arm.Admits {} (fun _ => .string "a") ∧
        ¬ arm.Admits {} fun _ => .null := by
  have hw : maybeTextFile.Working 0 ⟨0, none, .neutral, [maybeText]⟩ := .root rfl rfl
  have hop : Operator.ofToken? "&&" = some .boolAnd := rfl
  have hop' : Operator.ofToken? "!==" = some .notIdentical := rfl
  have hc : NullCondition maybeTextFile.names ⟨0, none, .neutral, [maybeText]⟩ hasLength := by
    refine .connective hop (.inl rfl) (.nullTest hop' rfl (.inl ⟨rfl, rfl⟩)) (.other ?_)
    rintro mid - side arm ⟨⟩
    assumption
  have hadm : Scope.Admits {} ⟨0, none, .neutral, [maybeText]⟩ fun _ => .string "a" := by
    intro x u hu
    have hx : maybeText.flowType = some u := by
      simp only [Scope.var?, find?_singleton] at hu
      split at hu
      · exact hu
      · cases hu
    cases hx
    exact TypeUnion.admits_ofList.mpr ⟨_, mem_cons_self, rfl⟩
  have ho : Outcome (fun _ => .string "a") hasLength true :=
    .and hop rfl (.nullRight hop' rfl rfl rfl rfl) (.other rfl true)
  have hend : ((hasLength.branch (.ofOutcome true) maybeTextFile).1.toOption.bind
      (hasLength.branch (.ofOutcome true) maybeTextFile).2.arena.scope?).any (fun arm =>
        ((arm.var? "x").bind (·.flowType)).any fun u => !u.admits {} .null) = true := by
    decide +kernel
  rcases branch_admits_possible_values hw hc true with ⟨k, t, arm, hk, harm, h⟩ | ⟨e, t, he, -⟩
  · refine ⟨_, hw, hc, hadm, ho, k, t, arm, hk, harm, h _ hadm ho, fun hnull => ?_⟩
    rw [hk, Except.toOption, Option.bind_some, harm, Option.any_some, Option.any_eq_true] at hend
    obtain ⟨u, hu, hnot⟩ := hend
    rw [hnull "x" u hu] at hnot
    cases hnot
  · rw [he] at hend
    cases hend

end PhpFlow
