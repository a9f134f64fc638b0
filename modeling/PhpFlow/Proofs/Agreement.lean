import PhpFlow.Proofs.Describing

/-!
# Types and values agree

An expression without variables that has a value has a type too, and the type admits the value. Only
arithmetic stands in the way, where the type of a result may be that of an integer though the value is a
double, or the other way round. What remains then is that both speak of a number.
-/
namespace PhpFlow

variable {α : Type} {s : State}

/-! ## Meanings -/

/-- Where there is a value the type, if there is an answer about it, describes it. -/
def Meaning.Agrees (s : State) (O : Prop) (m : Meaning) : Prop :=
  ∀ v t, m.value.Gives s (some v) → m.type.Gives s t → ∃ u, t = some u ∧ u.Describes s.symbols O v

/-- Two operands count as integers, and their sum, difference or product lies beyond 64 bits. -/
def Operands.Overflows (s : State) (op : Operator) (o : Operands) : Prop :=
  ∃ l r m n k, o.leftValue.Gives s (some l) ∧ o.rightValue.Gives s (some r) ∧
    l.toNumber? = .ok (some (.int m)) ∧ r.toNumber? = .ok (some (.int n)) ∧
    op.integerResult? m n = some k ∧ Number.inRange k = false

def Operands.IsOpen (s : State) (o : Operands) : Prop :=
  ∃ u, (o.leftType.Gives s (some u) ∨ o.rightType.Gives s (some u)) ∧ u.isAnyNumber

namespace Operands

structure Agrees (s : State) (O : Prop) (o : Operands) : Prop where
  left : Meaning.Agrees s O ⟨o.leftType, o.leftValue⟩
  right : Meaning.Agrees s O ⟨o.rightType, o.rightValue⟩

end Operands

def Query.Finds (p : Primitive) (q : Query (Option Value)) : Prop :=
  ∀ s v, q.Gives s (some v) → p.admits v

namespace Query.Finds

variable {p : Primitive} {α : Type}

theorem none : (Pure.pure Option.none : Query (Option Value)).Finds p := by
  intro s v h
  simp at h

theorem some {v : Value} (hv : p.admits v) : (Pure.pure (Option.some v) : Query (Option Value)).Finds p := by
  intro s w h
  obtain rfl : v = w := by simpa using h
  exact hv

theorem bind {q : Query α} {f : α → Query (Option Value)} (hf : ∀ a, (f a).Finds p) : (q >>= f).Finds p := by
  intro s v h
  obtain ⟨a, -, ha⟩ := Query.gives_bind.mp h
  exact hf a s v ha

theorem ofExcept {r : Except Fault (Option Value)} (hr : ∀ v, r = .ok (Option.some v) → p.admits v) :
    (Query.ofExcept r).Finds p := fun _ v h => hr v h

end Query.Finds

namespace Operator

variable {o : Operands} {op : Operator} {O : Prop} {v : Value} {t : Option TypeUnion} (l r : Value)

theorem finds_uncovered {p : Primitive} : (op.uncovered o l r).Finds p :=
  .bind fun _ => .none

theorem finds_orderingValue : (op.orderingValue o l r).Finds .bool := by
  unfold orderingValue
  split
  · exact .some rfl
  · exact .some rfl
  · exact finds_uncovered l r

theorem finds_spaceshipValue : (spaceshipValue o l r).Finds .int := by
  unfold spaceshipValue
  split
  · exact .some rfl
  · exact .some rfl
  · exact finds_uncovered l r

theorem finds_equalityValue : (op.equalityValue o l r).Finds .bool := by
  unfold equalityValue
  extract_lets verdict
  have hverdict (same : Option Bool) : (verdict same).Finds .bool := by
    cases same with
    | none => exact finds_uncovered l r
    | some b => cases op <;> exact .some rfl
  cases op <;> exact .bind hverdict

theorem finds_connectiveValue (decisive : Bool) : (connectiveValue decisive o).Finds .bool := by
  refine .bind fun l => ?_
  split
  · exact .some rfl
  · refine .bind fun r => ?_
    split
    · exact .some rfl
    · split
      · exact .some rfl
      · exact .none

theorem finds_instanceValue : (instanceValue o).Finds .bool := by
  refine .bind fun c => .bind fun u => ?_
  split
  · exact .bind fun _ => .none
  · exact .none
  · refine .bind fun derives => ?_
    dsimp only
    split
    · exact .none
    · split
      · exact .some rfl
      · split
        · exact .some rfl
        · exact .none

theorem finds_concatValue : (Query.ofExcept (concatValue l r)).Finds .string := by
  refine .ofExcept fun v h => ?_
  obtain ⟨a, -, h⟩ := exists_of_bind_ok h
  obtain ⟨b, -, h⟩ := exists_of_bind_ok h
  split at h <;> cases h
  rfl

theorem finds_moduloValue : (moduloValue o l r).Finds .int := by
  refine .bind fun a => .bind fun b => ?_
  split
  · split
    · exact .bind fun _ => .none
    · exact .some rfl
  · exact .none

theorem finds_onValues {p : Primitive} {f : Value → Value → Query (Option Value)}
    (hf : ∀ l r, (f l r).Finds p) : (onValues o f).Finds p := by
  refine .bind fun l => .bind fun r => ?_
  split
  · exact hf _ _
  · exact .none

theorem exists_of_onValues {f : Value → Value → Query (Option Value)}
    (h : (onValues o f).Gives s (some v)) :
    ∃ l r, o.leftValue.Gives s (some l) ∧ o.rightValue.Gives s (some r) ∧ (f l r).Gives s (some v) := by
  obtain ⟨l, hl, h⟩ := Query.gives_bind.mp h
  obtain ⟨r, hr, h⟩ := Query.gives_bind.mp h
  cases l with
  | none => simp at h
  | some l =>
    cases r with
    | none => simp at h
    | some r => exact ⟨l, r, hl, hr, h⟩

theorem finds_bitwiseValue : (op.bitwiseValue o l r).Finds .int := by
  unfold bitwiseValue
  split
  · next a b =>
    cases h : op.bitwiseInts a b with
    | none => exact .none
    | some n => exact .some rfl
  · exact finds_uncovered l r

end Operator

namespace Meaning

variable {m : Meaning} {O O' : Prop}

theorem Agrees.mono (h : m.Agrees s O) (hO : O → O') : m.Agrees s O' := by
  intro v t hv ht
  obtain ⟨u, rfl, hu⟩ := h v t hv ht
  exact ⟨u, rfl, hu.mono hO⟩

/-- The type is of one kind, and so is every value. -/
theorem Agrees.ofPrimitive {p : Primitive} (hp : p ∈ [.null, .bool, .int, .float, .string])
    (htype : m.type = Query.pure (some (.prim p))) (hvalue : m.value.Finds p) : m.Agrees s O := by
  intro v t hv ht
  rw [htype] at ht
  exact ⟨.prim p, (Query.gives_pure.mp ht).symm, .ofAdmitted hp (hvalue s v hv)⟩

theorem Agrees.constant (v : Value) : (constant v).Agrees s O := by
  intro w t hw ht
  obtain rfl : v = w := by simpa using Query.gives_pure.mp hw
  exact ⟨v.type, (Query.gives_pure.mp ht).symm, .ofType v⟩

/-- The type is that of the value, if there is one. -/
theorem Agrees.ofOwnType {q : Query (Option Value)} {f : Query (Option TypeUnion)} :
    Meaning.Agrees s O ⟨do match ← q with | some v => return some v.type | none => f, q⟩ := by
  intro v t hv ht
  obtain ⟨w, hw, ht⟩ := Query.gives_bind.mp ht
  obtain rfl := hw.unique hv
  exact ⟨v.type, (Query.gives_pure.mp ht).symm, .ofType v⟩

theorem Agrees.ofUnknown (h : m.value = pure none) : m.Agrees s O := by
  intro v t hv
  rw [h] at hv
  simp at hv

end Meaning

namespace Operator

variable {o : Operands} {op : Operator} {O : Prop} {v : Value} {t : Option TypeUnion}
variable {O' : Prop}

/-- The type of arithmetic on operands that are not arrays. -/
theorem gives_arithmeticType {l r : TypeUnion} (hl : ¬ l.onlyArrays) (hr : ¬ r.onlyArrays)
    (h : (op.arithmeticType o l r).Gives s t) : t = some (
      if op = modulo then .prim .int
      else if l.allAmong integerLike && r.allAmong integerLike then
        if op = divide || op = power then numberType else .prim .int
      else if l.allAmong (.float :: integerLike) && r.allAmong (.float :: integerLike) then .prim .float
      else numberType) := by
  unfold arithmeticType at h
  simp only [hl, hr, Bool.and_false, Bool.or_false, if_false, Bool.false_eq_true] at h
  split_ifs at h ⊢ <;> exact (Query.gives_pure.mp h).symm

/-- Where both operands have values they have types, and what arithmetic says of the types it says here. -/
theorem gives_typeOfArithmetic {l r : Value} (hop : op = modulo ∨ op.isArithmetic) (ho : o.Agrees s O)
    (hl : o.leftValue.Gives s (some l)) (hr : o.rightValue.Gives s (some r)) (h : (op.type o).Gives s t) :
    ∃ a b, o.leftType.Gives s (some a) ∧ o.rightType.Gives s (some b) ∧ a.Describes s.symbols O l ∧
      b.Describes s.symbols O r ∧ (op.arithmeticType o a b).Gives s t := by
  -- The types of both operands are asked for first, and they are known because the values are.
  obtain ⟨k, hk, hsome⟩ : ∃ k : Option TypeUnion → Option TypeUnion → Query (Option TypeUnion),
      op.type o = (o.leftType >>= fun a => o.rightType >>= k a) ∧
        ∀ a b, k (some a) (some b) = op.arithmeticType o a b := by
    rcases hop with rfl | hop
    · exact ⟨_, rfl, fun _ _ => rfl⟩
    · cases op <;> first | exact ⟨_, rfl, fun _ _ => rfl⟩ | cases hop
  rw [hk] at h
  obtain ⟨a, ha, h⟩ := Query.gives_bind.mp h
  obtain ⟨b, hb, h⟩ := Query.gives_bind.mp h
  obtain ⟨a, rfl, hadesc⟩ := ho.left l a hl ha
  obtain ⟨b, rfl, hbdesc⟩ := ho.right r b hr hb
  rw [hsome] at h
  exact ⟨a, b, ha, hb, hadesc, hbdesc, h⟩

/-- Arithmetic has a value on two arrays, which it joins, or on two operands that are not arrays. -/
theorem arithmeticValue_cases {l r : Value} (h : (op.arithmeticValue o l r).Gives s (some v)) :
    (op = add ∧ ∃ as bs es, l = .array as ∧ r = .array bs ∧ v = .array es) ∨
    ((∀ es, l ≠ .array es) ∧ (∀ es, r ≠ .array es) ∧
      (op = modulo ∧ (moduloValue o l r).Gives s (some v) ∨
        op ≠ modulo ∧ ∃ a b, l.toNumber? = .ok (some a) ∧ r.toNumber? = .ok (some b) ∧
          (op.numberValue o a b).Gives s (some v))) := by
  unfold arithmeticValue at h
  split at h
  · next as bs =>
    split at h
    · next hadd =>
      obtain rfl : .array (arrayUnion as bs) = v := by simpa using h
      exact .inl ⟨hadd, as, bs, _, rfl, rfl, rfl⟩
    · simp at h
  · simp at h
  · simp at h
  · next hleft hright _ =>
    refine .inr ⟨hleft, hright, ?_⟩
    split at h
    · next hmodulo => exact .inl ⟨hmodulo, h⟩
    · next hmodulo =>
      obtain ⟨a, ha, h⟩ := Query.gives_bind.mp h
      obtain ⟨b, hb, h⟩ := Query.gives_bind.mp h
      split at h
      · exact .inr ⟨hmodulo, _, _, ha, hb, h⟩
      · simp at h

theorem agrees_modulo (ho : o.Agrees s O) : Meaning.Agrees s O' ⟨modulo.type o, modulo.value o⟩ := by
  intro v t hv ht
  obtain ⟨l, r, hl, hr, h⟩ := exists_of_onValues hv
  obtain ⟨a, b, -, -, ha, hb, ht⟩ := gives_typeOfArithmetic (.inl rfl) ho hl hr ht
  rcases arithmeticValue_cases h with ⟨⟨⟩, -⟩ | ⟨hleft, hright, ⟨-, h⟩ | ⟨hne, -⟩⟩
  · have hla : ¬ a.onlyArrays := fun hc => (ha.onlyArrays_iff.mp hc).elim hleft
    have hrb : ¬ b.onlyArrays := fun hc => (hb.onlyArrays_iff.mp hc).elim hright
    refine ⟨_, gives_arithmeticType hla hrb ht, ?_⟩
    rw [if_pos rfl]
    exact .ofAdmitted (by simp) (finds_moduloValue l r s v h)
  · exact absurd rfl hne

section Numbers

variable {symbols : SymbolTable} {l r : Value} {a b : TypeUnion} {x y : Number}

/-- Operands that are integers to their types give an integer within 64 bits. -/
theorem admits_int_or (hop : op.isArithmetic) (hquotient : ¬ (op = divide || op = power))
    (ha : a.Describes symbols O l) (hb : b.Describes symbols O r) (haint : a.allAmong integerLike)
    (hbint : b.allAmong integerLike) (hx : l.toNumber? = .ok (some x)) (hy : r.toNumber? = .ok (some y))
    (h : (op.numberValue o x y).Gives s (some v)) :
    Primitive.int.admits v ∨ O ∨
      ∃ m n k, x = .int m ∧ y = .int n ∧ op.integerResult? m n = some k ∧ Number.inRange k = false := by
  obtain ⟨c, hc, -, hexact⟩ := exists_of_numberValue hop h
  cases x with
  | float _ => exact .inr (.inl (ha.of_isFloat hx rfl haint))
  | int m =>
    cases y with
    | float _ => exact .inr (.inl (hb.of_isFloat hy rfl hbint))
    | int n =>
      obtain ⟨k, hk⟩ : ∃ k, op.integerResult? m n = some k := by
        cases op <;> first | exact ⟨_, rfl⟩ | exact absurd rfl hquotient | cases hop
      obtain rfl := hexact m n rfl rfl k hk
      cases hrange : Number.inRange k with
      | false => exact .inr (.inr ⟨m, n, k, rfl, rfl, hk, hrange⟩)
      | true =>
        rw [Value.ofNumber, if_pos hrange] at hc
        cases hc
        exact .inl rfl

/-- Operands that are numbers to their types, one of them surely a double, give a double. -/
theorem admits_float_or (hop : op.isArithmetic) (ha : a.Describes symbols O l)
    (hb : b.Describes symbols O r) (hafloat : a.allAmong (.float :: integerLike))
    (hbfloat : b.allAmong (.float :: integerLike))
    (hint : ¬ (a.allAmong integerLike && b.allAmong integerLike)) (hx : l.toNumber? = .ok (some x))
    (hy : r.toNumber? = .ok (some y)) (h : (op.numberValue o x y).Gives s (some v)) :
    Primitive.float.admits v ∨ O ∨ a.isAnyNumber ∨ b.isAnyNumber := by
  obtain ⟨c, hc, hfloat, -⟩ := exists_of_numberValue hop h
  have double (hxy : x.isFloat || y.isFloat) : Primitive.float.admits v := by
    have hv := Value.isFloat_ofNumber hc (hfloat hxy)
    cases v <;> first | rfl | cases hv
  cases x with
  | float _ => exact .inl (double rfl)
  | int m =>
    cases y with
    | float _ => exact .inl (double rfl)
    | int n =>
      by_cases haint : a.allAmong integerLike
      · have hbint : ¬ b.allAmong integerLike := by simpa [haint] using hint
        rcases hb.isAnyNumber_or hy hbfloat hbint with hany | ho
        · exact .inr (.inr (.inr hany))
        · exact .inr (.inl ho)
      · rcases ha.isAnyNumber_or hx hafloat haint with hany | ho
        · exact .inr (.inr (.inl hany))
        · exact .inr (.inl ho)

end Numbers

theorem agrees_arithmetic (hop : op.isArithmetic) (ho : o.Agrees s O) (hover : o.Overflows s op → O)
    (hopen : o.IsOpen s → O) : Meaning.Agrees s O ⟨op.type o, op.value o⟩ := by
  intro v t hv ht
  have hvalue : (onValues o (op.arithmeticValue o)).Gives s (some v) := by
    cases op with
    | add | subtract | multiply | divide | power => exact hv
    | _ => cases hop
  obtain ⟨l, r, hl, hr, h⟩ := exists_of_onValues hvalue
  obtain ⟨a, b, hat, hbt, ha, hb, ht⟩ := gives_typeOfArithmetic (.inr hop) ho hl hr ht
  rcases arithmeticValue_cases h with
    ⟨rfl, as, bs, es, rfl, rfl, rfl⟩ | ⟨hleft, hright, ⟨rfl, -⟩ | ⟨hmod, x, y, hx, hy, h⟩⟩
  · have hla : a.onlyArrays := ha.onlyArrays_iff.mpr ⟨_, rfl⟩
    have hrb : b.onlyArrays := hb.onlyArrays_iff.mpr ⟨_, rfl⟩
    have htype : some (.prim .array) = t := by simpa [arithmeticType, hla, hrb] using ht
    exact ⟨_, htype.symm, .ofPrimitive rfl (.inl rfl)⟩
  · cases hop
  · have hla : ¬ a.onlyArrays := fun hc => (ha.onlyArrays_iff.mp hc).elim hleft
    have hrb : ¬ b.onlyArrays := fun hc => (hb.onlyArrays_iff.mp hc).elim hright
    have hnumber : v.isNumber := by
      obtain ⟨c, hc, -⟩ := exists_of_numberValue hop h
      exact Value.isNumber_ofNumber hc
    refine ⟨_, gives_arithmeticType hla hrb ht, ?_⟩
    rw [if_neg hmod]
    split_ifs with hint hquotient hdouble
    · exact .numberType hnumber
    · rw [Bool.and_eq_true] at hint
      refine .ofPrimitive (by cases v <;> first | rfl | cases hnumber) ?_
      rcases admits_int_or hop hquotient ha hb hint.1 hint.2 hx hy h with
        hv | hO | ⟨m, n, k, rfl, rfl, hk, hrange⟩
      · exact .inl hv
      · exact .inr ⟨hO, hnumber⟩
      · exact .inr ⟨hover ⟨l, r, m, n, k, hl, hr, hx, hy, hk, hrange⟩, hnumber⟩
    · rw [Bool.and_eq_true] at hdouble
      refine .ofPrimitive (by cases v <;> first | rfl | cases hnumber) ?_
      rcases admits_float_or hop ha hb hdouble.1 hdouble.2 hint hx hy h with hv | hO | hany | hany
      · exact .inl hv
      · exact .inr ⟨hO, hnumber⟩
      · exact .inr ⟨hopen ⟨a, .inl hat, hany⟩, hnumber⟩
      · exact .inr ⟨hopen ⟨b, .inr hbt, hany⟩, hnumber⟩
    · exact .numberType hnumber

/-- Of two integers bitwise operators make an integer, to the type as well. -/
theorem agrees_bitwise (htype : op.type o = do return some (op.bitwiseType (← o.leftType) (← o.rightType)))
    (hvalue : op.value o = onValues o (op.bitwiseValue o)) (ho : o.Agrees s O) :
    Meaning.Agrees s O' ⟨op.type o, op.value o⟩ := by
  intro v t hv ht
  simp only [hvalue] at hv
  simp only [htype] at ht
  obtain ⟨l, r, hl, hr, h⟩ := exists_of_onValues hv
  obtain ⟨a, ha, ht⟩ := Query.gives_bind.mp ht
  obtain ⟨b, hb, ht⟩ := Query.gives_bind.mp ht
  obtain ⟨a, rfl, hdescribes⟩ := ho.left l a hl ha
  have hstring : a.isPrimitive .string = false := by
    rw [Bool.eq_false_iff]
    intro hstring
    obtain ⟨text, rfl⟩ := hdescribes.exists_of_isString hstring
    have hnever := finds_uncovered (p := .never) (.string text) r s v h
    cases v <;> cases hnever
  have hint : op.bitwiseType (some a) b = .prim .int := by
    unfold bitwiseType
    split <;> simp_all
  refine ⟨_, (Query.gives_pure.mp ht).symm, ?_⟩
  rw [hint]
  exact .ofAdmitted (by simp) (finds_bitwiseValue l r s v h)

/-- A value that is not null stands for itself, and its type has no null in it; the other's value is taken
in place of null, whose type has nothing but null in it. -/
theorem agrees_coalesce (hleft : Meaning.Agrees s O ⟨o.leftType, o.leftValue⟩)
    (hkept : ∀ v, o.leftValue.Gives s (some v) → v ≠ .null → O → O')
    (hright : o.leftValue.Gives s (some .null) → Meaning.Agrees s O' ⟨o.rightType, o.rightValue⟩) :
    Meaning.Agrees s O' ⟨coalesce.type o, coalesce.value o⟩ := by
  intro v t hv ht
  obtain ⟨a, ha, ht⟩ := Query.gives_bind.mp ht
  obtain ⟨b, hb, ht⟩ := Query.gives_bind.mp ht
  obtain rfl := Query.gives_pure.mp ht
  obtain ⟨l, hl, hv⟩ := Query.gives_bind.mp hv
  split at hv
  · simp at hv
  · obtain ⟨a, rfl, hnull⟩ := hleft .null a hl ha
    obtain ⟨b, rfl, hdescribes⟩ := hright hl v b hv hb
    have hnothing : a.atoms.filter (fun x => !x.isNull) = [] := by
      rw [List.filter_eq_nil_iff]
      intro x hx
      have hkind : x.isNull := hnull.kind x hx
      simp [hkind]
    have hunion : a.withoutNull.union b = .ofList b.atoms := by
      rw [TypeUnion.withoutNull, TypeUnion.filter, hnothing]
      rfl
    refine ⟨.ofList b.atoms, ?_, hdescribes.reordered⟩
    rw [coalesceType, if_pos (hnull.isNullable_iff.mpr rfl), Option.map_some, hunion]
  · next w hw =>
    obtain rfl : w = v := by simpa using hv
    have hne : w ≠ .null := by
      rintro rfl
      exact hw rfl
    obtain ⟨a, rfl, hdescribes⟩ := hleft w a hl ha
    refine ⟨a, ?_, hdescribes.mono (hkept w hl hne)⟩
    rw [coalesceType, if_neg (fun hnull => hne (hdescribes.isNullable_iff.mp hnull))]

/-- Types and values agree on an operation if they do on its operands. Beyond that the type is wrong only
about arithmetic that leaves 64 bits, or on an operand whose kind of number is open. -/
theorem agrees (op : Operator) {L R : Prop} (hl : Meaning.Agrees s L ⟨o.leftType, o.leftValue⟩)
    (hr : Meaning.Agrees s R ⟨o.rightType, o.rightValue⟩)
    (harithmetic : op.isArithmetic → (L ∨ R) ∨ o.Overflows s op ∨ o.IsOpen s → O)
    (hkept : op = coalesce → ∀ v, o.leftValue.Gives s (some v) → v ≠ .null → L → O)
    (hreplaced : op = coalesce → o.leftValue.Gives s (some .null) → R → O) :
    Meaning.Agrees s O ⟨op.type o, op.value o⟩ := by
  have both : o.Agrees s (L ∨ R) := ⟨hl.mono .inl, hr.mono .inr⟩
  have number (hop : op.isArithmetic) : Meaning.Agrees s O ⟨op.type o, op.value o⟩ :=
    agrees_arithmetic hop ⟨hl.mono fun h => harithmetic hop (.inl (.inl h)),
      hr.mono fun h => harithmetic hop (.inl (.inr h))⟩
      (fun h => harithmetic hop (.inr (.inl h))) fun h => harithmetic hop (.inr (.inr h))
  cases op with
  | greater | less | greaterOrEqual | lessOrEqual =>
    exact .ofPrimitive (by simp) rfl (finds_onValues finds_orderingValue)
  | spaceship => exact .ofPrimitive (by simp) rfl (finds_onValues finds_spaceshipValue)
  | equal | notEqual | identical | notIdentical =>
    exact .ofPrimitive (by simp) rfl (finds_onValues finds_equalityValue)
  | wordAnd | boolAnd | wordOr | boolOr => exact .ofPrimitive (by simp) rfl (finds_connectiveValue _)
  | wordXor => exact .ofPrimitive (by simp) rfl (finds_onValues fun _ _ => .some rfl)
  | instanceOf => exact .ofPrimitive (by simp) rfl finds_instanceValue
  | concat => exact .ofPrimitive (by simp) rfl (finds_onValues finds_concatValue)
  | add | subtract | multiply | power | divide => exact number rfl
  | modulo => exact agrees_modulo both
  | bitAnd | bitOr | bitXor | shiftLeft | shiftRight => exact agrees_bitwise rfl rfl both
  | coalesce =>
    exact agrees_coalesce hl (hkept rfl) fun hnull => hr.mono (hreplaced rfl hnull)

end Operator

def Number.signed (op : String) (n : Number) : Number := if op = "-" then n.neg else n

theorem Number.isFloat_signed {op : String} {n : Number} : (n.signed op).isFloat = n.isFloat := by
  unfold signed
  split
  · cases n <;> rfl
  · rfl

namespace Meaning

variable {m : Meaning} {M O : Prop} {op : String} {v w : Value}

/-- The operand of a sign counts as an integer, and with the sign it lies beyond 64 bits. -/
def Overflows (s : State) (op : String) (m : Meaning) : Prop :=
  ∃ v n k, m.value.Gives s (some v) ∧ v.toNumber? = .ok (some n) ∧ n.signed op = .int k ∧
    Number.inRange k = false

theorem exists_of_signValue (h : signValue op v = .ok (some w)) :
    op ∈ ["+", "-"] ∧ ∃ n, v.toNumber? = .ok (some n) ∧ Value.ofNumber (n.signed op) = .ok w := by
  obtain ⟨n, hn, h⟩ := exists_of_bind_ok h
  cases n with
  | none => cases h
  | some n =>
    split_ifs at h with hminus hplus
    · obtain ⟨w', hw', hw⟩ := exists_of_map_ok h
      obtain rfl := Option.some.inj hw
      exact ⟨by simp [hminus], n, hn, by simpa [Number.signed, hminus] using hw'⟩
    · obtain ⟨w', hw', hw⟩ := exists_of_map_ok h
      obtain rfl := Option.some.inj hw
      exact ⟨by simp [hplus], n, hn, by simpa [Number.signed, hplus] using hw'⟩
    · cases h

/-- With a sign an integer stays one to the type, and a double as well. -/
theorem describes_signed {symbols : SymbolTable} {u : TypeUnion} {n : Number}
    (hu : u.Describes symbols M v) (hn : v.toNumber? = .ok (some n))
    (hw : Value.ofNumber (n.signed op) = .ok w)
    (hover : ∀ k, n.signed op = .int k → Number.inRange k = false → M) :
    (if u.isPrimitive .int || u.isPrimitive .float then u else Operator.numberType).Describes symbols M w := by
  have hnumber := Value.isNumber_ofNumber hw
  split_ifs with hprim
  · rw [Bool.or_eq_true] at hprim
    have hkind {p : Primitive} (hp : p = .int ∨ p = .float) : w.isKind (.primitive p) := by
      rcases hp with rfl | rfl <;> cases w <;> first | rfl | cases hnumber
    rcases hprim with hint | hfloat
    · obtain rfl := TypeUnion.eq_prim_of_isPrimitive hint
      refine .ofPrimitive (hkind (.inl rfl)) ?_
      cases hsigned : n.signed op with
      | float x =>
        have hdouble : n.isFloat := by rw [← Number.isFloat_signed, hsigned]; rfl
        exact .inr ⟨hu.of_isFloat hn hdouble rfl, hnumber⟩
      | int k =>
        cases hrange : Number.inRange k with
        | false => exact .inr ⟨hover k hsigned hrange, hnumber⟩
        | true =>
          rw [hsigned, Value.ofNumber, if_pos hrange] at hw
          cases hw
          exact .inl rfl
    · obtain rfl := TypeUnion.eq_prim_of_isPrimitive hfloat
      refine .ofPrimitive (hkind (.inr rfl)) ?_
      cases n with
      | int k =>
        have hM : M := (hu.isAnyNumber_or hn rfl (by decide)).resolve_left (by decide)
        exact .inr ⟨hM, hnumber⟩
      | float x =>
        have hdouble := Value.isFloat_ofNumber hw (by rw [Number.isFloat_signed]; rfl)
        refine .inl ?_
        cases w <;> first | rfl | cases hdouble
  · exact .numberType hnumber

theorem exists_of_withValue {q : Query (Option Value)} {f : Value → Query (Option α)} {a : α}
    (h : (withValue q f).Gives s (some a)) : ∃ v, q.Gives s (some v) ∧ (f v).Gives s (some a) := by
  obtain ⟨v, hv, h⟩ := Query.gives_bind.mp h
  cases v with
  | none => simp at h
  | some v => exact ⟨v, hv, h⟩

theorem finds_withValue {p : Primitive} {q : Query (Option Value)} {f : Value → Query (Option Value)}
    (hf : ∀ v, (f v).Finds p) : (withValue q f).Finds p := by
  intro s v h
  obtain ⟨w, -, h⟩ := exists_of_withValue h
  exact hf w s v h

/-- Before its operand `@` changes nothing, a sign only the number, and the rest has one type. -/
theorem agrees_unary (hm : m.Agrees s M) (hkept : op ∈ ["@", "+", "-"] → M → O)
    (hover : op ∈ ["+", "-"] → m.Overflows s op → O) : (unary op m).Agrees s O := by
  by_cases hnot : op = "!"
  · subst hnot
    refine .ofPrimitive (p := .bool) (by simp) rfl (finds_withValue fun v => .ofExcept fun w hw => ?_)
    cases hw
    rfl
  by_cases hbits : op = "~"
  · subst hbits
    refine .ofPrimitive (p := .int) (by simp) rfl (finds_withValue fun v => .ofExcept fun w hw => ?_)
    cases v <;> cases hw
    rfl
  intro v t hv ht
  obtain ⟨w, hw, hv⟩ := exists_of_withValue hv
  simp only [unary, unaryType, if_neg hnot, if_neg hbits] at ht
  simp only [unaryValue, if_neg hnot, if_neg hbits, Query.gives_ofExcept] at hv
  split_ifs at hv ht with hsilent
  · obtain rfl : w = v := by simpa using hv
    obtain ⟨u, rfl, hu⟩ := hm w t hw ht
    exact ⟨u, rfl, hu.mono (hkept (by simp [hsilent]))⟩
  · obtain ⟨hsign, n, hn, hv⟩ := exists_of_signValue hv
    obtain ⟨t', ht', ht⟩ := Query.gives_bind.mp ht
    obtain ⟨u, rfl, hu⟩ := hm w t' hw ht'
    have hdescribes := describes_signed (hu.mono (hkept (List.mem_cons_of_mem _ hsign))) hn hv
      fun k hk hrange => hover hsign ⟨w, n, k, hw, hn, hk, hrange⟩
    refine ⟨_, ?_, hdescribes⟩
    simp only at ht
    split_ifs at ht ⊢ <;> exact (Query.gives_pure.mp ht).symm

theorem gives_ternaryType {c a : Meaning} {b : Option Meaning} {t : Option TypeUnion}
    (hv : c.value.Gives s (some v)) (h : (ternary c b a).type.Gives s t) :
    ∃ thenType elseType, a.type.Gives s elseType ∧ t = choose (some v.truth) thenType elseType ∧
      (∀ m, b = some m → m.type.Gives s thenType) ∧
      (b = none → ∃ u, c.type.Gives s u ∧ thenType = u.map fun u => u.filter Atom.canBeTrue) := by
  obtain ⟨w, hw, h⟩ := Query.gives_bind.mp h
  obtain rfl := hw.unique hv
  cases b with
  | some m =>
    obtain ⟨thenType, hthen, h⟩ := Query.gives_bind.mp h
    obtain ⟨elseType, helse, h⟩ := Query.gives_bind.mp h
    refine ⟨thenType, elseType, helse, (Query.gives_pure.mp h).symm, ?_, nofun⟩
    rintro _ ⟨⟩
    exact hthen
  | none =>
    obtain ⟨u, hu, h⟩ := Query.gives_bind.mp h
    obtain ⟨thenType, hthen, h⟩ := Query.gives_bind.mp h
    obtain ⟨elseType, helse, h⟩ := Query.gives_bind.mp h
    exact ⟨thenType, elseType, helse, (Query.gives_pure.mp h).symm, nofun,
      fun _ => ⟨u, hu, (Query.gives_pure.mp hthen).symm⟩⟩

/-- The branch that is taken decides. Where it is the condition itself, what cannot be true goes. -/
theorem agrees_ternary {c a : Meaning} {b : Option Meaning}
    (hbody : ∀ m, b = some m → ∀ v, c.value.Gives s (some v) → v.truth → m.Agrees s O)
    (hcondition : b = none → ∀ v, c.value.Gives s (some v) → v.truth → c.Agrees s O)
    (halternative : ∀ v, c.value.Gives s (some v) → v.truth = false → a.Agrees s O) :
    (ternary c b a).Agrees s O := by
  intro v t hv ht
  obtain ⟨w, hw, hv⟩ := exists_of_withValue hv
  obtain ⟨thenType, elseType, helse, rfl, hthen, hsame⟩ := gives_ternaryType hw ht
  cases htruth : w.truth with
  | false =>
    rw [htruth] at hv
    exact halternative w hw htruth v elseType hv helse
  | true =>
    rw [htruth] at hv
    cases b with
    | some m => exact hbody m rfl w hw htruth v thenType hv (hthen m rfl)
    | none =>
      obtain rfl : w = v := by simpa using hv
      obtain ⟨u, hu, rfl⟩ := hsame rfl
      obtain ⟨u, rfl, hdescribes⟩ := hcondition rfl w hw htruth w u hw hu
      exact ⟨_, rfl, hdescribes.whereTrue htruth⟩

theorem admits_castValue {target : CastTarget} (h : target.value v = .ok (some w)) : target.type.admits w := by
  cases target with
  | int | float | string =>
    obtain ⟨x, -, hx⟩ := exists_of_map_ok h
    obtain ⟨y, -, rfl⟩ := Option.map_eq_some_iff.mp hx
    rfl
  | bool | unset =>
    cases h
    rfl
  | array | object => cases h

/-- What a cast has a value for it makes of the type it names. -/
theorem agrees_cast (word : String) : (cast word m).Agrees s O := by
  intro v t hv ht
  obtain ⟨w, -, hv⟩ := exists_of_withValue hv
  cases htarget : castTarget? word with
  | none => simp [htarget] at hv
  | some target =>
    simp only [htarget, Query.gives_ofExcept] at hv
    simp only [cast, htarget, Option.map_some, Query.gives_pure] at ht
    refine ⟨_, ht.symm, .ofAdmitted ?_ (admits_castValue hv)⟩
    cases target with
    | array | object => cases hv
    | _ => decide

theorem agrees_ofName (name : String) : (ofName name).Agrees s O := by
  intro v t hv ht
  simp only [ofName, Query.gives_ask] at hv ht
  refine ⟨v.type, ?_, .ofType v⟩
  rw [← ht, State.nameType?, hv]

theorem agrees_create (name : Option String) : (create name).Agrees s O := by
  cases name with
  | none => exact .ofUnknown rfl
  | some n =>
    intro v t hv ht
    obtain rfl := Query.gives_ask.mp ht
    obtain rfl : .object (s.resolveClass n) = v := by simpa using Query.gives_ask.mp hv
    exact ⟨_, rfl, .ofType (.object (s.resolveClass n))⟩

theorem agrees_ofResult (r : Except Fault Value) : (ofResult r).Agrees s O := by
  intro v t hv ht
  obtain ⟨w, rfl, hw⟩ := exists_of_map_ok hv
  obtain rfl := Option.some.inj hw
  exact ⟨w.type, (Except.ok.inj ht).symm, .ofType w⟩

end Meaning

theorem ArrayLiteral.agrees_meaning (es : List ElementMeaning) {O : Prop} : (meaning es).Agrees s O :=
  Meaning.Agrees.ofOwnType

/-! ## Expressions -/

mutual

/-- The value of the expression is found without looking at a variable. -/
def Expr.isVariableFree : Expr → Bool
  | .var _ _ => false
  | .augment _ a _ b | .binary _ a _ b => a.isVariableFree && b.isVariableFree
  | .assign _ _ b _ => b.isVariableFree
  | .unary _ _ a | .paren _ a | .cast _ _ a => a.isVariableFree
  | .ternary _ c b a => c.isVariableFree && optionIsVariableFree b && a.isVariableFree
  | .subscript _ b i => b.isVariableFree && optionIsVariableFree i
  | .array _ es => elementsAreVariableFree es
  | .sequence _ es => allAreVariableFree es
  | _ => true

def optionIsVariableFree : Option Expr → Bool
  | none => true
  | some e => e.isVariableFree

def elementsAreVariableFree : List Element → Bool
  | [] => true
  | ⟨_, v, k, _, _⟩ :: es => v.isVariableFree && optionIsVariableFree k && elementsAreVariableFree es

def allAreVariableFree : List Expr → Bool
  | [] => true
  | e :: es => e.isVariableFree && allAreVariableFree es

end

namespace Expr

/-- An operation on two expressions, also one that is then assigned. -/
def operation? : Expr → Option (Expr × Operator × Expr)
  | .augment _ a t b | .binary _ a t b => (Operator.ofToken? t).map fun op => (a, op, b)
  | _ => none

/-- The value of the first expression is that of the second, or computed from it by arithmetic. -/
inductive ComesFrom (s : State) : Expr → Expr → Prop where
  | refl (e : Expr) : ComesFrom s e e
  | assign {r a b byRef f} (h : ComesFrom s b f) : ComesFrom s (.assign r a b byRef) f
  | paren {r a f} (h : ComesFrom s a f) : ComesFrom s (.paren r a) f
  | last {r es e f} (he : es.getLast? = some e) (h : ComesFrom s e f) : ComesFrom s (.sequence r es) f
  | body {r c b a v f} (hc : c.value.Gives s (some v)) (hv : v.truth) (h : ComesFrom s b f) :
    ComesFrom s (.ternary r c (some b) a) f
  | condition {r c a v f} (hc : c.value.Gives s (some v)) (hv : v.truth) (h : ComesFrom s c f) :
    ComesFrom s (.ternary r c none a) f
  | alternative {r c b a v f} (hc : c.value.Gives s (some v)) (hv : v.truth = false)
    (h : ComesFrom s a f) : ComesFrom s (.ternary r c b a) f
  | operand {r op a f} (hop : op ∈ ["@", "+", "-"]) (h : ComesFrom s a f) : ComesFrom s (.unary r op a) f
  | left {e a op b f} (he : e.operation? = some (a, op, b)) (hop : op.isArithmetic)
    (h : ComesFrom s a f) : ComesFrom s e f
  | right {e a op b f} (he : e.operation? = some (a, op, b)) (hop : op.isArithmetic)
    (h : ComesFrom s b f) : ComesFrom s e f
  | kept {e a b v f} (he : e.operation? = some (a, .coalesce, b)) (ha : a.value.Gives s (some v))
    (hv : v ≠ .null) (h : ComesFrom s a f) : ComesFrom s e f
  | replaced {e a b f} (he : e.operation? = some (a, .coalesce, b)) (ha : a.value.Gives s (some .null))
    (h : ComesFrom s b f) : ComesFrom s e f

/-- A sum, difference or product of integers, or an integer with a sign, that lies beyond 64 bits. -/
inductive Overflows (s : State) : Expr → Prop where
  | operation {e a op b l r m n k} (he : e.operation? = some (a, op, b)) (hl : a.value.Gives s (some l))
    (hr : b.value.Gives s (some r)) (hm : l.toNumber? = .ok (some (.int m)))
    (hn : r.toNumber? = .ok (some (.int n))) (hk : op.integerResult? m n = some k)
    (hrange : Number.inRange k = false) : Overflows s e
  | sign {r op a v n k} (hop : op ∈ ["+", "-"]) (hv : a.value.Gives s (some v))
    (hn : v.toNumber? = .ok (some n)) (hk : n.signed op = .int k) (hrange : Number.inRange k = false) :
    Overflows s (.unary r op a)

/-- Arithmetic on an operand that by its type may be an integer as well as a double. -/
inductive IsOpen (s : State) : Expr → Prop where
  | left {e a op b u} (he : e.operation? = some (a, op, b)) (hop : op.isArithmetic)
    (hu : a.type.Gives s (some u)) (hany : u.isAnyNumber) : IsOpen s e
  | right {e a op b u} (he : e.operation? = some (a, op, b)) (hop : op.isArithmetic)
    (hu : b.type.Gives s (some u)) (hany : u.isAnyNumber) : IsOpen s e

/-- The value comes from arithmetic about whose result the type may be wrong. -/
def Strays (s : State) (e : Expr) : Prop := ∃ f, e.ComesFrom s f ∧ (f.Overflows s ∨ f.IsOpen s)

variable {e a b : Expr} {op : Operator}

theorem Strays.of {f : Expr} (h : f.Strays s) (hfrom : ∀ g, f.ComesFrom s g → e.ComesFrom s g) :
    e.Strays s := by
  obtain ⟨g, hg, hstray⟩ := h
  exact ⟨g, hfrom g hg, hstray⟩

theorem agrees_operation (r : Range) (token : String)
    (hmeaning : e.meaning = .operation r token (.ofExprs r a b a.meaning b.meaning))
    (he : e.operation? = (Operator.ofToken? token).map fun op => (a, op, b))
    (ha : a.meaning.Agrees s (a.Strays s)) (hb : b.meaning.Agrees s (b.Strays s)) :
    e.meaning.Agrees s (e.Strays s) := by
  rw [hmeaning, Meaning.operation]
  cases hop : Operator.ofToken? token with
  | none =>
    intro v t hv
    obtain ⟨_, -, hv⟩ := Query.gives_bind.mp hv
    simp at hv
  | some op =>
    rw [hop, Option.map_some] at he
    refine op.agrees ha hb ?_ ?_ ?_
    · rintro harith ((h | h) | h | h)
      · exact h.of fun _ => .left he harith
      · exact h.of fun _ => .right he harith
      · obtain ⟨l, r, m, n, k, hl, hr, hm, hn, hk, hrange⟩ := h
        exact ⟨e, .refl e, .inl (.operation he hl hr hm hn hk hrange)⟩
      · obtain ⟨u, hu | hu, hany⟩ := h
        · exact ⟨e, .refl e, .inr (.left he harith hu hany)⟩
        · exact ⟨e, .refl e, .inr (.right he harith hu hany)⟩
    · rintro rfl v hv hne h
      exact h.of fun _ => .kept he hv hne
    · rintro rfl hnull h
      exact h.of fun _ => .replaced he hnull

end Expr

theorem eq_none_of_optionMeaning {e : Option Expr} (h : optionMeaning e = none) : e = none := by
  cases e with
  | none => rfl
  | some e => cases h

mutual

/-- The type of an expression without variables describes its value. -/
theorem Expr.agrees_meaning (s : State) (e : Expr) (he : e.isVariableFree) :
    e.meaning.Agrees s (e.Strays s) := by
  cases e with
  | var r n => cases he
  | integer r n => exact Meaning.agrees_ofResult _
  | float r x => exact Meaning.Agrees.constant _
  | string r v =>
    cases v with
    | none => exact .ofUnknown rfl
    | some v => exact Meaning.Agrees.constant _
  | boolean r b => exact Meaning.Agrees.constant _
  | null r => exact Meaning.Agrees.constant _
  | name r n => exact Meaning.agrees_ofName n
  | array r es => exact ArrayLiteral.agrees_meaning _
  | assign r a b byRef =>
    rw [Expr.isVariableFree] at he
    exact (b.agrees_meaning s he).mono fun h => h.of fun _ => .assign
  | augment r a op b =>
    rw [Expr.isVariableFree, Bool.and_eq_true] at he
    exact Expr.agrees_operation r op (by rw [Expr.meaning]) (by rw [Expr.operation?])
      (a.agrees_meaning s he.1) (b.agrees_meaning s he.2)
  | binary r a op b =>
    rw [Expr.isVariableFree, Bool.and_eq_true] at he
    exact Expr.agrees_operation r op (by rw [Expr.meaning]) (by rw [Expr.operation?])
      (a.agrees_meaning s he.1) (b.agrees_meaning s he.2)
  | unary r op a =>
    rw [Expr.isVariableFree] at he
    refine Meaning.agrees_unary (a.agrees_meaning s he) (fun hop h => h.of fun _ => .operand hop) ?_
    rintro hop ⟨v, n, k, hv, hn, hk, hrange⟩
    exact ⟨_, .refl _, .inl (.sign hop hv hn hk hrange)⟩
  | update r op a before => exact .ofUnknown (by rw [Expr.meaning]; rfl)
  | paren r a =>
    rw [Expr.isVariableFree] at he
    exact (a.agrees_meaning s he).mono fun h => h.of fun _ => .paren
  | ternary r c b a =>
    simp only [Expr.isVariableFree, Bool.and_eq_true] at he
    refine Meaning.agrees_ternary ?_ ?_ ?_
    · intro m hm v hv htruth
      obtain ⟨d, rfl, hd⟩ := agrees_optionMeaning s b he.1.2 m hm
      exact hd.mono fun h => h.of fun _ => .body hv htruth
    · intro hnone v hv htruth
      obtain rfl := eq_none_of_optionMeaning hnone
      exact (c.agrees_meaning s he.1.1).mono fun h => h.of fun _ => .condition hv htruth
    · intro v hv htruth
      exact (a.agrees_meaning s he.2).mono fun h => h.of fun _ => .alternative hv htruth
  | call r f as => exact .ofUnknown (by rw [Expr.meaning]; rfl)
  | create r c as =>
    rw [Expr.meaning]
    exact Meaning.agrees_create _
  | cast r w a =>
    rw [Expr.meaning]
    exact Meaning.agrees_cast w
  | subscript r b i =>
    rw [Expr.meaning]
    exact Meaning.Agrees.ofOwnType
  | sequence r es =>
    rw [Expr.isVariableFree] at he
    exact (agrees_lastMeaning s es he).mono fun ⟨e, hlast, h⟩ => h.of fun _ => .last hlast
  | closure _ _ _ | select _ _ _ | unknown _ _ _ | error _ _ => exact .ofUnknown (by rw [Expr.meaning]; rfl)

theorem agrees_optionMeaning (s : State) (e : Option Expr) (he : optionIsVariableFree e) (m : Meaning)
    (hm : optionMeaning e = some m) : ∃ d, e = some d ∧ m.Agrees s (d.Strays s) := by
  cases e with
  | none => cases hm
  | some e =>
    obtain rfl : e.meaning = m := by simpa [optionMeaning] using hm
    exact ⟨e, rfl, e.agrees_meaning s he⟩

theorem agrees_lastMeaning (s : State) (es : List Expr) (hes : allAreVariableFree es) :
    (lastMeaning es).Agrees s (∃ e, es.getLast? = some e ∧ e.Strays s) := by
  match es with
  | [] => exact .ofUnknown rfl
  | [e] =>
    rw [allAreVariableFree, Bool.and_eq_true] at hes
    exact (e.agrees_meaning s hes.1).mono fun h => ⟨e, rfl, h⟩
  | d :: e :: es =>
    rw [allAreVariableFree, Bool.and_eq_true] at hes
    refine (agrees_lastMeaning s (e :: es) hes.2).mono ?_
    rintro ⟨f, hf, h⟩
    exact ⟨f, by rwa [List.getLast?_cons_cons], h⟩

end

/-- The two evaluators agree. An expression without variables that has a value has a type, unless finding
it runs into a number that is too large, and the type admits the value. The exception are numbers that
come from an integer that has left 64 bits, or from arithmetic on an operand whose kind of number is
open: of these the type still says that they are numbers. -/
theorem type_admits_folded_value {e : Expr} (he : e.isVariableFree) {s : State} {v : Value}
    (hv : e.value.Gives s (some v)) (hkeys : v.isWellKeyed) :
    (∃ f, (e.type s).1 = .error f ∧ f.isNumeric) ∨
    ∃ u, e.type.Gives s (some u) ∧
      (u.admits s.symbols v ∨
        v.isNumber ∧ u.allAmong [.int, .float] ∧
          ∃ f, e.ComesFrom s f ∧ (f.Overflows s ∨ f.IsOpen s)) := by
  cases ht : (e.type s).1 with
  | error f => exact .inl ⟨f, rfl, e.numericFaults_type s f ht⟩
  | ok t =>
    obtain ⟨u, rfl, hu⟩ := e.agrees_meaning s he v t hv ht
    refine .inr ⟨u, ht, (hu.admits hkeys).imp_right ?_⟩
    rintro ⟨hstrays, hnumber⟩
    exact ⟨hnumber, hu.allAmong_numbers hnumber, hstrays⟩

/-- The code `null ?? [1 => 2.5, "k" => -(3 - 5)]`. -/
def nestedDefault : Expr :=
  .binary .zero (.null .zero) "??" (.array .zero
    [⟨.zero, .float .zero 2.5, some (.integer .zero 1), false, false⟩,
     ⟨.zero, .unary .zero "-" (.paren .zero (.binary .zero (.integer .zero 3) "-" (.integer .zero 5))),
      some (.string .zero (some "k")), false, false⟩])

/-- It comes to an array, and its type is a shape that describes it. -/
theorem nestedDefault_type_admits_value :
    nestedDefault.isVariableFree ∧
    ∃ v u, nestedDefault.value.Gives (.new {} {} none .discarding) (some v) ∧ v.isWellKeyed ∧
      v.isNumber = false ∧ nestedDefault.type.Gives (.new {} {} none .discarding) (some u) ∧
      u.admits {} v := by
  have hfree : nestedDefault.isVariableFree := by decide
  obtain ⟨v, hv, hend⟩ := Query.exists_gives (q := nestedDefault.value) (s := .new {} {} none .discarding)
    (p := fun v => v.isWellKeyed && !v.isNumber) (by decide)
  have htype : (nestedDefault.type (.new {} {} none .discarding)).1.toOption.isSome := by decide +kernel
  rw [Bool.and_eq_true, Bool.not_eq_true'] at hend
  rcases type_admits_folded_value hfree hv hend.1 with ⟨f, hf, -⟩ | ⟨u, hu, hadmits | ⟨hnumber, -⟩⟩
  · rw [hf] at htype
    cases htype
  · exact ⟨hfree, v, u, hv, hend.1, hend.2, hu, hadmits⟩
  · rw [hend.2] at hnumber
    cases hnumber

/-- The code `PHP_INT_MAX + 1`. -/
def greatestPlusOne : Expr := .binary .zero (.name .zero "PHP_INT_MAX") "+" (.integer .zero 1)

/-- It comes to a double and has the type of an integer, which does not admit it. -/
theorem greatestPlusOne_escapes_type :
    greatestPlusOne.isVariableFree ∧
    ∃ x, greatestPlusOne.value.Gives (.new {} {} none .discarding) (some (.float x)) ∧
      greatestPlusOne.type.Gives (.new {} {} none .discarding) (some (.prim .int)) ∧
      (TypeUnion.prim .int).admits {} (.float x) = false := by
  obtain ⟨v, hv, hend⟩ := Query.exists_gives (q := greatestPlusOne.value)
    (s := .new {} {} none .discarding) (p := Primitive.float.admits) (by decide +kernel)
  obtain ⟨u, hu, hint⟩ := Query.exists_gives (q := greatestPlusOne.type)
    (s := .new {} {} none .discarding) (p := (·.isPrimitive .int)) (by decide +kernel)
  obtain rfl := TypeUnion.eq_prim_of_isPrimitive hint
  cases v with
  | float x => exact ⟨by decide, x, hv, hu, rfl⟩
  | _ => cases hend

end PhpFlow
