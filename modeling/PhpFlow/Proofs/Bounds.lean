import PhpFlow.Proofs.Agreement
import PhpFlow.Proofs.Coverage
import PhpFlow.Proofs.Overflow

/-!
# Integers have 64 bits

Whatever is folded, the integers of the result lie within 64 bits: sums and the like become doubles beyond
them, and shifts lose the bits beyond. So all integers that an analysis comes across have 64 bits, at any
moment and in arrays at whatever depth. Keys of arrays may go further.
-/
namespace PhpFlow

open List

variable {s : State}

/-- The integer stands in the value, in arrays at whatever depth. -/
inductive Value.Holds (n : Int) : Value → Prop where
  | int : Holds n (.int n)
  | entry {es : List (ArrayKey × Value)} {e : ArrayKey × Value} : e ∈ es → Holds n e.2 → Holds n (.array es)

def Value.Fits (v : Value) : Prop := ∀ n, v.Holds n → -2 ^ 63 ≤ n ∧ n ≤ 2 ^ 63 - 1

namespace Number

theorem inRange_iff {n : Int} : inRange n = true ↔ -2 ^ 63 ≤ n ∧ n ≤ 2 ^ 63 - 1 := by
  rw [inRange, Bool.and_eq_true, decide_eq_true_iff, decide_eq_true_iff, minInt, maxInt]
  omega

section Bits

/-- An integer of 64 bits, or its complement, is a natural number below `2 ^ 63`. -/
theorem inRange_ofNat {m : Nat} : inRange (.ofNat m) = true ↔ m < 2 ^ 63 := by
  rw [inRange_iff, Int.ofNat_eq_natCast]
  omega

theorem inRange_negSucc {m : Nat} : inRange (.negSucc m) = true ↔ m < 2 ^ 63 := by
  rw [inRange_iff]
  omega

variable {a b : Int}

theorem inRange_bitNot (ha : inRange a = true) : inRange (bitNot a) = true := by
  rw [inRange_iff] at ha ⊢
  unfold bitNot
  omega

theorem inRange_bitAnd (ha : inRange a = true) (hb : inRange b = true) : inRange (bitAnd a b) = true := by
  cases a with
  | ofNat m =>
    have hm := inRange_ofNat.mp ha
    cases b with
    | ofNat n => exact inRange_ofNat.mpr (Nat.and_lt_two_pow m (inRange_ofNat.mp hb))
    | negSucc n =>
      have hand : m &&& n < 2 ^ 63 := Nat.and_lt_two_pow m (inRange_negSucc.mp hb)
      exact inRange_ofNat.mpr (Nat.xor_lt_two_pow hm hand)
  | negSucc m =>
    have hm := inRange_negSucc.mp ha
    cases b with
    | ofNat n =>
      have hand : n &&& m < 2 ^ 63 := Nat.and_lt_two_pow n hm
      exact inRange_ofNat.mpr (Nat.xor_lt_two_pow (inRange_ofNat.mp hb) hand)
    | negSucc n => exact inRange_negSucc.mpr (Nat.or_lt_two_pow hm (inRange_negSucc.mp hb))

theorem inRange_bitOr (ha : inRange a = true) (hb : inRange b = true) : inRange (bitOr a b) = true :=
  inRange_bitNot (inRange_bitAnd (inRange_bitNot ha) (inRange_bitNot hb))

theorem inRange_bitXor (ha : inRange a = true) (hb : inRange b = true) : inRange (bitXor a b) = true := by
  cases a with
  | ofNat m =>
    have hm := inRange_ofNat.mp ha
    cases b with
    | ofNat n => exact inRange_ofNat.mpr (Nat.xor_lt_two_pow hm (inRange_ofNat.mp hb))
    | negSucc n => exact inRange_negSucc.mpr (Nat.xor_lt_two_pow hm (inRange_negSucc.mp hb))
  | negSucc m =>
    have hm := inRange_negSucc.mp ha
    cases b with
    | ofNat n => exact inRange_negSucc.mpr (Nat.xor_lt_two_pow hm (inRange_ofNat.mp hb))
    | negSucc n => exact inRange_ofNat.mpr (Nat.xor_lt_two_pow hm (inRange_negSucc.mp hb))

/-- What is shifted beyond 64 bits is lost, whatever integer it was. -/
theorem inRange_shiftLeft (a : Int) (k : Nat) : inRange (shiftLeft a k) = true := by
  unfold shiftLeft
  split
  · rfl
  · have hpow : ((Nat.pow 2 64 : Nat) : Int) = 18446744073709551616 := rfl
    have hle := Int.le_bmod (x := a * (Nat.pow 2 k : Nat)) (m := Nat.pow 2 64) (by decide)
    have hlt := Int.bmod_lt (x := a * (Nat.pow 2 k : Nat)) (m := Nat.pow 2 64) (by decide)
    rw [hpow] at hle hlt
    rw [inRange_iff]
    omega

theorem inRange_shiftRight (ha : inRange a = true) (k : Nat) : inRange (shiftRight a k) = true := by
  unfold shiftRight
  split
  · split <;> rfl
  · rw [inRange_iff] at ha ⊢
    have hpos : (0 : Int) < (Nat.pow 2 k : Nat) := Int.natCast_pos.mpr (Nat.two_pow_pos k)
    generalize ((Nat.pow 2 k : Nat) : Int) = d at hpos
    have hlow : -2 ^ 63 * d ≤ a := by omega
    have hhigh : a ≤ (2 ^ 63 - 1) * d := by omega
    exact ⟨(Int.le_ediv_iff_mul_le hpos).mpr hlow, Int.ediv_le_of_le_mul hpos hhigh⟩

theorem inRange_bitwiseInts (op : Operator) (ha : inRange a = true) (hb : inRange b = true) {n : Int}
    (h : op.bitwiseInts a b = some n) : inRange n = true := by
  unfold Operator.bitwiseInts at h
  split at h
  · exact Option.some.inj h ▸ inRange_bitAnd ha hb
  · exact Option.some.inj h ▸ inRange_bitOr ha hb
  · exact Option.some.inj h ▸ inRange_bitXor ha hb
  all_goals
    split at h
    · cases h
    · first
        | exact Option.some.inj h ▸ inRange_shiftLeft a _
        | exact Option.some.inj h ▸ inRange_shiftRight ha _

/-- A remainder is not larger than the dividend and has its sign. -/
theorem inRange_remainder (ha : inRange a = true) (b : Int) : inRange (remainder a b) = true := by
  have hle : a.natAbs % b.natAbs ≤ a.natAbs := Nat.mod_le _ _
  rw [inRange_iff] at ha ⊢
  unfold remainder
  dsimp only
  split <;> omega

end Bits

theorem inRange_signOf (isGreater isLess : Bool) : inRange (Operator.signOf isGreater isLess) = true := by
  cases isGreater <;> cases isLess <;> rfl

end Number

namespace Value

open PhpFlow.Number (inRange inRange_iff)

variable {v w : Value} {n : Int}
variable {es : List (ArrayKey × Value)}

theorem fits_int : (int n).Fits ↔ inRange n = true := by
  rw [inRange_iff]
  refine ⟨fun h => h n .int, fun h m hm => ?_⟩
  cases hm
  exact h

theorem fits_array : (array es).Fits ↔ ∀ e ∈ es, e.2.Fits := by
  refine ⟨fun h e he n hn => h n (.entry he hn), fun h n hn => ?_⟩
  cases hn with
  | entry he hn => exact h _ he n hn

/-- A value of another primitive type holds no integer at all. -/
theorem fits_of_admits {p : Primitive} (hp : p = .null ∨ p = .bool ∨ p = .float ∨ p = .string)
    (h : p.admits v) : v.Fits := by
  intro n hn
  cases hn with
  | int => rcases hp with rfl | rfl | rfl | rfl <;> cases h
  | entry _ _ => rcases hp with rfl | rfl | rfl | rfl <;> cases h

theorem Fits.lookup? {k : ArrayKey} (h : (array es).Fits) (hv : lookup? k es = some v) : v.Fits :=
  fits_array.mp h _ (mem_of_lookup? hv)

theorem Fits.setEntry (h : (array es).Fits) (k : ArrayKey) (hv : v.Fits) :
    (array (setEntry k v es)).Fits := by
  rw [fits_array] at h ⊢
  induction es with
  | nil => simpa [Value.setEntry] using hv
  | cons e es ih =>
    rw [forall_mem_cons] at h
    rw [Value.setEntry]
    split
    · exact forall_mem_cons.mpr ⟨hv, h.2⟩
    · exact forall_mem_cons.mpr ⟨h.1, ih h.2⟩

theorem fits_ofNumber {a : Number} (h : ofNumber a = .ok v) : v.Fits := by
  cases a with
  | float x =>
    cases h
    exact fits_of_admits (p := .float) (by simp) rfl
  | int n =>
    rw [ofNumber] at h
    split at h
    · next hn =>
      cases h
      exact fits_int.mpr hn
    · obtain ⟨x, -, rfl⟩ := exists_of_map_ok h
      exact fits_of_admits (p := .float) (by simp) rfl

theorem inRange_floatToInt? {x : Float} (h : floatToInt? x = some n) : inRange n = true :=
  (Option.filter_eq_some_iff.mp h).2

theorem inRange_numeral {numeral : Numeral} (h : numeral.value = .ok (.int n)) : inRange n = true := by
  rcases numeral.value_cases h with ⟨v, heq, hv⟩ | ⟨_, _, _, heq⟩
  · cases heq
    exact hv
  · cases heq

/-- What a value counts for as an integer has 64 bits. -/
theorem inRange_toInt? (hv : v.Fits) (h : v.toInt? = .ok (some n)) : inRange n = true := by
  cases v with
  | null =>
    cases h
    rfl
  | bool b =>
    cases h
    cases b <;> rfl
  | int m =>
    cases h
    exact fits_int.mp hv
  | float x => exact inRange_floatToInt? (Except.ok.inj h)
  | string t =>
    obtain ⟨a, ha, h⟩ := exists_of_bind_ok h
    cases a with
    | none =>
      cases h
      rfl
    | some a =>
      cases a with
      | float x => exact inRange_floatToInt? (Except.ok.inj h)
      | int m =>
        cases h
        unfold NumericText.leading? at ha
        split at ha
        · obtain ⟨c, hc, heq⟩ := exists_of_map_ok ha
          cases heq
          exact inRange_numeral hc
        · cases ha
  | array es =>
    cases h
    split <;> rfl
  | object q => cases h

theorem fits_updatedValue {op : String} {value : Option Value} (h : updatedValue op value = .ok (some w)) :
    w.Fits := by
  unfold updatedValue at h
  split at h
  · obtain ⟨u, hu, heq⟩ := exists_of_map_ok h
    cases heq
    exact fits_ofNumber hu
  · split at h
    · cases h
      exact fits_int.mpr rfl
    · cases h
  · cases h

/-- The value that all live writes share is that of one of them. -/
theorem mem_of_common? {vs : List (Option Value)} (h : common? vs = some v) : some v ∈ vs := by
  unfold common? at h
  split at h
  · cases h
  · cases h
  · split at h
    · exact Option.some.inj h ▸ mem_cons_self
    · cases h

end Value

def Query.Fits (s : State) (q : Query (Option Value)) : Prop := ∀ v, q.Gives s (some v) → v.Fits

namespace Query.Fits

variable {s : State} {α : Type}

theorem none : (Pure.pure Option.none : Query (Option Value)).Fits s := by
  intro v h
  simp at h

theorem some {v : Value} (hv : v.Fits) : (Pure.pure (Option.some v) : Query (Option Value)).Fits s := by
  intro w h
  obtain rfl : v = w := by simpa using h
  exact hv

theorem bind {q : Query α} {f : α → Query (Option Value)} (hf : ∀ a, q.Gives s a → (f a).Fits s) :
    (q >>= f).Fits s := by
  intro v h
  obtain ⟨a, ha, h⟩ := Query.gives_bind.mp h
  exact hf a ha v h

theorem ofFinds {p : Primitive} {q : Query (Option Value)} (h : q.Finds p)
    (hp : p = .null ∨ p = .bool ∨ p = .float ∨ p = .string) : q.Fits s :=
  fun v hv => Value.fits_of_admits hp (h s v hv)

end Query.Fits

/-- A fault that is caught leaves the answer unknown. -/
theorem Query.gives_of_guarded {α : Type} {r : Range} {q : Query (Option α)} {a : α}
    (h : (Query.guarded r q).Gives s (some a)) : q.Gives s (some a) := by
  unfold Gives guarded at h
  unfold Gives
  split at h
  · next hq => rw [hq, ← h]
  · split at h
    · cases h
    · cases h

namespace Operator

variable {s : State} {o : Operands} {l r v : Value}

theorem fits_uncovered (op : Operator) (o : Operands) (l r : Value) : (op.uncovered o l r).Fits s :=
  .bind fun _ _ => .none

theorem fits_spaceshipValue (o : Operands) (l r : Value) : (spaceshipValue o l r).Fits s := by
  unfold spaceshipValue
  split
  · exact .some (Value.fits_int.mpr (Number.inRange_signOf _ _))
  · exact .some (Value.fits_int.mpr (Number.inRange_signOf _ _))
  · exact fits_uncovered _ o l r

theorem fits_moduloValue (hl : l.Fits) (o : Operands) (r : Value) : (moduloValue o l r).Fits s := by
  refine .bind fun a ha => .bind fun b _ => ?_
  split
  · split
    · exact .bind fun _ _ => .none
    · exact .some (Value.fits_int.mpr (Number.inRange_remainder (Value.inRange_toInt? hl ha) _))
  · exact .none

theorem fits_numberValue (op : Operator) (o : Operands) (a b : Number) : (op.numberValue o a b).Fits s := by
  have hfinish : ∀ c, (numberValue.finish c).Fits s := by
    intro c v h
    obtain ⟨n, -, hn⟩ := gives_finish h
    exact Value.fits_ofNumber hn
  unfold numberValue
  split
  · exact hfinish _
  · exact hfinish _
  · exact hfinish _
  · split
    · exact .bind fun _ _ => .none
    · exact hfinish _
  · split
    · exact .none
    · exact hfinish _

theorem fits_arithmeticValue (op : Operator) (o : Operands) (hl : l.Fits) (hr : r.Fits) :
    (op.arithmeticValue o l r).Fits s := by
  unfold arithmeticValue
  split
  · next as bs =>
    split
    · refine .some (Value.fits_array.mpr fun e he => ?_)
      rcases mem_append.mp he with he | he
      · exact Value.fits_array.mp hl e he
      · exact Value.fits_array.mp hr e (mem_filter.mp he).1
    · exact .none
  · exact .none
  · exact .none
  · split
    · exact fits_moduloValue hl o r
    · refine .bind fun a _ => .bind fun b _ => ?_
      split
      · exact fits_numberValue op o _ _
      · exact .none

theorem fits_bitwiseValue (op : Operator) (o : Operands) (hl : l.Fits) (hr : r.Fits) :
    (op.bitwiseValue o l r).Fits s := by
  unfold bitwiseValue
  split
  · next a b =>
    cases hn : op.bitwiseInts a b with
    | none => exact .none
    | some n =>
      exact .some (Value.fits_int.mpr
        (Number.inRange_bitwiseInts op (Value.fits_int.mp hl) (Value.fits_int.mp hr) hn))
  · exact fits_uncovered op o l r

/-- An operation on values with integers of 64 bits gives such a value. -/
theorem fits_value (op : Operator) (hl : o.leftValue.Fits s) (hr : o.rightValue.Fits s) :
    (op.value o).Fits s := by
  have honValues : ∀ {f : Value → Value → Query (Option Value)},
      (∀ l r, l.Fits → r.Fits → (f l r).Fits s) → (onValues o f).Fits s := by
    intro f hf v h
    obtain ⟨l, r, hleft, hright, h⟩ := exists_of_onValues h
    exact hf l r (hl l hleft) (hr r hright) v h
  cases op with
  | greater | less | greaterOrEqual | lessOrEqual =>
    exact .ofFinds (finds_onValues finds_orderingValue) (by simp)
  | spaceship => exact honValues fun l r _ _ => fits_spaceshipValue o l r
  | equal | notEqual | identical | notIdentical =>
    exact .ofFinds (finds_onValues finds_equalityValue) (by simp)
  | wordAnd | boolAnd => exact .ofFinds (finds_connectiveValue false) (by simp)
  | wordOr | boolOr => exact .ofFinds (finds_connectiveValue true) (by simp)
  | wordXor => exact .ofFinds (p := .bool) (finds_onValues fun _ _ => .some rfl) (by simp)
  | add | subtract | multiply | power | divide | modulo =>
    exact honValues fun l r hl hr => fits_arithmeticValue _ o hl hr
  | concat => exact .ofFinds (finds_onValues finds_concatValue) (by simp)
  | bitAnd | bitOr | bitXor | shiftLeft | shiftRight =>
    exact honValues fun l r hl hr => fits_bitwiseValue _ o hl hr
  | coalesce =>
    refine .bind fun left hleft => ?_
    split
    · exact .none
    · exact hr
    · exact .some (hl _ hleft)
  | instanceOf => exact .ofFinds finds_instanceValue (by simp)

end Operator

structure State.Fits (s : State) : Prop where
  writes : ∀ h sc, s.arena.scope? h = some sc → ∀ v ∈ sc.vars, ∀ w, w ∈ v.history ∨ w ∈ v.live →
    ∀ x, w.value = some x → x.Fits
  constants : ∀ c ∈ s.symbols.constants, ∀ x, c.value = some x → x.Fits
  returns : ∀ r ∈ s.returns, ∀ x, r.2 = some x → x.Fits

namespace Meaning

variable {s : State}

theorem fits_ofVariable (hs : s.Fits) (r : Range) (name : String) : (ofVariable r name).value.Fits s := by
  intro v h
  obtain ⟨sc, hsc, hv⟩ := exists_of_bind_ok (Query.gives_of_guarded h)
  obtain ⟨k, -, hget⟩ := exists_of_bind_ok hsc
  have hscope : s.arena.scope? k = some sc := by
    unfold Arena.get at hget
    split at hget <;> cases hget
    assumption
  obtain ⟨x, hx, hvalue⟩ := Option.bind_eq_some_iff.mp (Except.ok.inj hv)
  unfold Variable.flowValue at hvalue
  split at hvalue
  · cases hvalue
  · obtain ⟨w, hw, hwv⟩ := mem_map.mp (Value.mem_of_common? hvalue)
    exact hs.writes k sc hscope x (Scope.mem_of_var? hx) w (.inr hw) v hwv

/-- The constants that every program has, and the names that stand for values. -/
theorem fits_of_lookup {name : String} {v : Value}
    (h : reservedNames.lookup name = some v ∨ builtinConstants.lookup name = some v) : v.Fits := by
  have hmem : (name, v) ∈ reservedNames ++ builtinConstants := by
    rcases h with h | h
    all_goals
      obtain ⟨l₁, l₂, hl, -⟩ := lookup_eq_some_iff.mp h
      simp [hl]
  intro n hn
  cases hn with
  | int =>
    have hall : ∀ p ∈ reservedNames ++ builtinConstants, ∀ m, p.2 = .int m → Number.inRange m = true := by
      simp [reservedNames, builtinConstants]
      decide
    exact Number.inRange_iff.mp (hall _ hmem n rfl)
  | entry => simp [reservedNames, builtinConstants] at hmem

theorem fits_ofName (hs : s.Fits) (name : String) : (ofName name).value.Fits s := by
  intro v h
  have hname : s.nameValue? name = some v := (Query.gives_ask (f := fun s => s.nameValue? name)).mp h
  unfold State.nameValue? at hname
  dsimp only at hname
  split at hname
  · next hreserved => exact fits_of_lookup (.inl (hreserved.trans hname))
  · split at hname
    · next c hc =>
      have hmem : c ∈ s.symbols.constants := by
        unfold State.constant? at hc
        split at hc
        · exact mem_of_find?_eq_some hc
        · cases hlocal : s.symbols.constant? (s.qualify name) with
          | none =>
            rw [hlocal] at hc
            exact mem_of_find?_eq_some hc
          | some d =>
            rw [hlocal] at hc
            exact Option.some.inj hc ▸ mem_of_find?_eq_some hlocal
      exact hs.constants c hmem v hname
    · exact fits_of_lookup (.inr hname)

theorem fits_withValue {q : Query (Option Value)} {f : Value → Query (Option Value)}
    (hf : ∀ v, q.Gives s (some v) → (f v).Fits s) : (withValue q f).Fits s := by
  intro v h
  obtain ⟨w, hw, h⟩ := exists_of_withValue h
  exact hf w hw v h

theorem fits_unary (op : String) {m : Meaning} (hm : m.value.Fits s) : (unary op m).value.Fits s := by
  refine fits_withValue fun v hv w hw => ?_
  unfold unaryValue at hw
  split at hw
  · cases hw
    exact Value.fits_of_admits (p := .bool) (by simp) rfl
  · split at hw
    · cases hw
      exact hm v hv
    · split at hw
      · split at hw
        · cases hw
          exact Value.fits_int.mpr (Number.inRange_bitNot (Value.fits_int.mp (hm _ hv)))
        · cases hw
      · obtain ⟨-, n, -, hn⟩ := exists_of_signValue hw
        exact Value.fits_ofNumber hn

theorem fits_ternary {c a : Meaning} {b : Option Meaning} (hc : c.value.Fits s)
    (hb : ∀ m ∈ b, m.value.Fits s) (ha : a.value.Fits s) : (ternary c b a).value.Fits s := by
  refine fits_withValue fun v hv => ?_
  split
  · cases b with
    | none => exact .some (hc v hv)
    | some b => exact hb b rfl
  · exact ha

theorem fits_cast (word : String) {m : Meaning} (hm : m.value.Fits s) : (cast word m).value.Fits s := by
  refine fits_withValue fun v hv => ?_
  split
  · exact .none
  · next target _ =>
    intro w hw
    have hadmits := admits_castValue (Query.gives_ofExcept.mp hw)
    cases target with
    | int =>
      obtain ⟨n, hn, heq⟩ := exists_of_map_ok (Query.gives_ofExcept.mp hw)
      obtain ⟨k, rfl, rfl⟩ := Option.map_eq_some_iff.mp heq
      exact Value.fits_int.mpr (Value.inRange_toInt? (hm v hv) hn)
    | float | string | bool | unset => exact Value.fits_of_admits (by simp [CastTarget.type]) hadmits
    | array | object => cases hw

theorem fits_create (name : Option String) : (create name).value.Fits s := by
  cases name with
  | none => exact .none
  | some n =>
    intro v hv k hk
    have hobject : some (Value.object (s.resolveClass n)) = some v := Except.ok.inj hv
    obtain rfl := Option.some.inj hobject
    cases hk

/-- An element of a constant is one of its values, or a character. -/
theorem fits_elementAt? {b i v : Value} (hb : b.Fits) (h : elementAt? b i = .ok (some v)) : v.Fits := by
  unfold elementAt? at h
  split at h
  · obtain ⟨k, -, hk⟩ := exists_of_map_ok h
    obtain ⟨key, -, hlookup⟩ := Option.bind_eq_some_iff.mp hk
    exact hb.lookup? hlookup
  · next t n =>
    unfold characterAt? at h
    dsimp only at h
    generalize (if n < 0 then n + (t.toList.length : Int) else n) = j at h
    split at h
    · cases h
    · obtain ⟨c, -, rfl⟩ := Option.map_eq_some_iff.mp (Except.ok.inj h)
      exact Value.fits_of_admits (p := .string) (by simp) rfl
  · cases h

theorem fits_subscript {base : Meaning} {index : Option Meaning} (hb : base.value.Fits s) :
    (subscript base index).value.Fits s := by
  cases index with
  | none => exact .none
  | some index =>
    refine .bind fun b hbase => .bind fun i _ => ?_
    cases b with
    | none => exact .none
    | some b =>
      cases i with
      | none => exact .none
      | some i => exact fun v hv => fits_elementAt? (hb b hbase) (Query.gives_ofExcept.mp hv)

end Meaning

theorem ArrayLiteral.fits_valueFrom (es : List ElementMeaning) (hes : ∀ e ∈ es, e.value.value.Fits s)
    (next : Int) (entries : List (ArrayKey × Value)) (hentries : (Value.array entries).Fits) :
    (valueFrom next entries es).Fits s := by
  induction es generalizing next entries with
  | nil => exact .some hentries
  | cons e es ih =>
    rw [forall_mem_cons] at hes
    rw [valueFrom]
    split
    · exact .none
    · refine .bind fun v hv => ?_
      cases v with
      | none => exact .none
      | some v =>
        refine .bind fun key _ => ?_
        split
        · exact .none
        · exact ih hes.2 _ _ (hentries.setEntry _ (hes.1 v hv))

mutual

/-- In a state without integers beyond 64 bits no expression has a value with one. -/
theorem Expr.fits_value (hs : s.Fits) (e : Expr) : e.value.Fits s := by
  unfold Expr.value
  cases e with
  | var r n => exact Meaning.fits_ofVariable hs r n
  | integer _ n =>
    intro v hv
    obtain ⟨w, hw, heq⟩ := exists_of_map_ok (Query.gives_ofExcept.mp hv)
    cases heq
    exact Value.fits_ofNumber hw
  | float _ x => exact .some (Value.fits_of_admits (p := .float) (by simp) rfl)
  | string _ t =>
    cases t with
    | none => exact .none
    | some t => exact .some (Value.fits_of_admits (p := .string) (by simp) rfl)
  | boolean _ b => exact .some (Value.fits_of_admits (p := .bool) (by simp) rfl)
  | null _ => exact .some (Value.fits_of_admits (p := .null) (by simp) rfl)
  | name _ n => exact Meaning.fits_ofName hs n
  | array _ es =>
    exact ArrayLiteral.fits_valueFrom _ (fits_elementMeanings hs es) 0 [] (Value.fits_array.mpr (by simp))
  | assign _ _ b _ => exact b.fits_value hs
  | augment r a op b | binary r a op b =>
    rw [Expr.meaning, Meaning.operation]
    split
    · exact .bind fun _ _ => .none
    · exact Operator.fits_value _ (a.fits_value hs) (b.fits_value hs)
  | unary _ op a => exact Meaning.fits_unary op (a.fits_value hs)
  | update _ _ a _ | call _ f as | closure _ _ _ | select _ _ _ | unknown _ _ _ | error _ _ => exact .none
  | paren _ a => exact a.fits_value hs
  | ternary _ c b a =>
    exact Meaning.fits_ternary (c.fits_value hs) (fits_optionMeaning hs b) (a.fits_value hs)
  | create _ c as => exact Meaning.fits_create c.name?
  | cast _ t a => exact Meaning.fits_cast t (a.fits_value hs)
  | subscript _ b i => exact Meaning.fits_subscript (b.fits_value hs)
  | sequence _ es => exact fits_lastMeaning hs es

theorem fits_optionMeaning (hs : s.Fits) (e : Option Expr) : ∀ m ∈ optionMeaning e, m.value.Fits s := by
  cases e with
  | none =>
    intro m hm
    cases hm
  | some e =>
    intro m hm
    cases hm
    exact e.fits_value hs

theorem fits_elementMeanings (hs : s.Fits) (es : List Element) :
    ∀ e ∈ elementMeanings es, e.value.value.Fits s := by
  cases es with
  | nil =>
    intro m hm
    cases hm
  | cons e es =>
    obtain ⟨_, v, k, _, _⟩ := e
    exact forall_mem_cons.mpr ⟨v.fits_value hs, fits_elementMeanings hs es⟩

theorem fits_lastMeaning (hs : s.Fits) (es : List Expr) : (lastMeaning es).value.Fits s := by
  match es with
  | [] => exact .none
  | [e] => exact e.fits_value hs
  | _ :: e :: es => exact fits_lastMeaning hs (e :: es)

end

section Courses

open Arena (Session)

variable {s : State}

theorem State.Yields.fits (hs : s.Fits) {v : Value} (h : s.Yields v) : v.Fits := by
  induction h with
  | value e hv => exact e.fits_value hs _ hv
  | counted op _ hw _ => exact Value.fits_updatedValue hw
  | element _ hv ih => exact ih.lookup? hv

/-- The writes of the variables are among those that were made. -/
theorem State.Fits.of_made {made : List Write} (hsound : Session.Sound ⟨s.arena, made⟩)
    (hmade : ∀ w ∈ made, ∀ x, w.value = some x → x.Fits)
    (hconstants : ∀ c ∈ s.symbols.constants, ∀ x, c.value = some x → x.Fits)
    (hreturns : ∀ r ∈ s.returns, ∀ x, r.2 = some x → x.Fits) : s.Fits where
  writes h sc hsc v hv w hw x hx := by
    have haccounted := hsound.accounted h sc hsc v hv
    have hhistory : w ∈ v.history := hw.elim id (haccounted.live w)
    exact hmade w (mem_of_getElem? (haccounted.recorded w hhistory)) x hx
  constants := hconstants
  returns := hreturns

theorem SymbolTable.mem_constants_addConstant {t : SymbolTable} {c d : ConstantSymbol}
    (h : d ∈ (t.addConstant c).constants) : d ∈ t.constants ∨ d = c := by
  unfold addConstant at h
  split at h
  · exact .inl h
  · simpa using h

theorem State.mem_returns_updateFrame {r r' : TypeUnion × Option Value}
    (h : r ∈ (s.updateFrame fun f => { f with returns := f.returns ++ [r'] }).returns) :
    r ∈ s.returns ∨ r = r' := by
  cases hf : s.frames with
  | nil =>
    simp only [State.updateFrame, State.returns, hf, flatMap_cons, flatMap_nil, append_nil,
      mem_append, mem_singleton] at h ⊢
    exact h
  | cons f fs =>
    simp only [State.updateFrame, State.returns, hf, flatMap_cons, mem_append, mem_singleton] at h ⊢
    tauto

/-- At every moment of an analysis, neither the writes made nor the state hold an integer beyond 64 bits. -/
theorem Course.fits {made : List Write} (h : Course s made) :
    (∀ w ∈ made, ∀ x, w.value = some x → x.Fits) ∧ s.Fits := by
  induction h with
  | start config file sink =>
    refine ⟨by simp, .of_made (State.sound_new {} config file sink) (by simp) (by simp [State.new]) ?_⟩
    simp [State.new, State.returns, Frame.new]
  | file hs config file sink ih =>
    refine ⟨by simp, .of_made (State.sound_new _ config file sink) (by simp) ih.2.constants ?_⟩
    simp [State.new, State.returns, Frame.new]
  | aside hs harena hconstants hreturns ih =>
    refine ⟨ih.1, .of_made (hs.aside harena hconstants hreturns).sound ih.1 ?_ ?_⟩
    · rw [hconstants]
      exact ih.2.constants
    · exact fun r hr => ih.2.returns r (hreturns hr)
  | scopes hs ha ih =>
    exact ⟨ih.1, .of_made (hs.scopes ha).sound ih.1 ih.2.constants ih.2.returns⟩
  | @write _ _ _ _ _ w hs hs₀ hw ha ih ih₀ =>
    have hmade := forall_mem_append.mpr
      ⟨ih.1, forall_mem_singleton.mpr fun x hx => (hw x hx).fits ih₀.2⟩
    exact ⟨hmade, .of_made (hs.write hs₀ hw ha).sound hmade ih.2.constants ih.2.returns⟩
  | @return_ s s₀ _ _ value type hs hs₀ hv ih ih₀ =>
    refine ⟨ih.1, .of_made (hs.return_ type hs₀ hv).sound ih.1 ?_ ?_⟩
    · have hsymbols : ∀ g, (s.updateFrame g).symbols = s.symbols := by
        intro g
        cases hf : s.frames <;> simp [State.updateFrame, hf]
      rw [hsymbols]
      exact ih.2.constants
    · intro r hr x hx
      rcases State.mem_returns_updateFrame hr with hr | rfl
      · exact ih.2.returns r hr x hx
      · exact (hv x hx).fits ih₀.2
  | constant name type hs hs₀ hv ih ih₀ =>
    refine ⟨ih.1, .of_made hs.sound ih.1 (fun c hc x hx => ?_) ih.2.returns⟩
    rcases SymbolTable.mem_constants_addConstant hc with hc | rfl
    · exact ih.2.constants c hc x hx
    · exact (hv x hx).fits ih₀.2

end Courses

/-- In every state of an analysis, all integers that a write, a constant or a return holds have 64 bits,
in arrays at whatever depth, and so have those of every expression that is folded there. An analysis starts
in such a state, and both of its rounds, on whatever code, lead from such states to such states. -/
theorem folded_integers_have_64_bits :
    (∀ config file sink, (State.new {} config file sink).Occurs) ∧
    ∀ s : State, s.Occurs →
      s.Fits ∧ (∀ (e : Expr) (v : Value), (e.value s).1 = .ok (some v) → v.Fits) ∧
      (∀ (node : Stmt) (where_ : NodeKind), (node.declare s).2.Occurs ∧ (node.analyze where_ s).2.Occurs) ∧
      ∀ config file sink program collect,
        (fileRounds program collect (State.new s.symbols config file sink)).2.Occurs := by
  refine ⟨fun config file sink => ⟨[], .start config file sink⟩, ?_⟩
  rintro s ⟨made, hcourse⟩
  have hfits := hcourse.fits.2
  refine ⟨hfits, fun e v hv => e.fits_value hfits v hv, fun node where_ => ?_, ?_⟩
  · exact ⟨node.remains_declare s ⟨made, hcourse⟩, node.remains_analyze where_ s ⟨made, hcourse⟩⟩
  · intro config file sink program collect
    exact remains_fileRounds program collect _ ⟨[], hcourse.file config file sink⟩

/-- `$x = [9223372036854775807, [1 << 63]];` -/
def extremesAssigned : Stmt :=
  .expression .zero (.assign .zero (.var .zero "x")
    (.array .zero
      [⟨.zero, .integer .zero 9223372036854775807, none, false, false⟩,
       ⟨.zero, .array .zero
          [⟨.zero, .binary .zero (.integer .zero 1) "<<" (.integer .zero 63), none, false, false⟩],
        none, false, false⟩])
    false)

/-- The variable then holds the least integer, one array within the other, and none that is less. -/
theorem extremesAssigned_have_64_bits :
    (extremesAssigned.analyze .program (.new {} {} none .discarding)).2.Occurs ∧
    (extremesAssigned.analyze .program (.new {} {} none .discarding)).2.Fits ∧
    ∃ v, ((Expr.var .zero "x").value
        (extremesAssigned.analyze .program (.new {} {} none .discarding)).2).1 = .ok (some v) ∧
      v.Holds (-2 ^ 63) ∧ v.Fits := by
  have hoccurs : (extremesAssigned.analyze .program (.new {} {} none .discarding)).2.Occurs :=
    extremesAssigned.remains_analyze .program _ (folded_integers_have_64_bits.1 _ _ _)
  obtain ⟨hfits, hvalues, -⟩ := folded_integers_have_64_bits.2 _ hoccurs
  have hvalue : ((Expr.var .zero "x").value
      (extremesAssigned.analyze .program (.new {} {} none .discarding)).2).1 = .ok (some
        (.array [(.int 0, .int 9223372036854775807), (.int 1, .array [(.int 0, .int (-2 ^ 63))])])) := rfl
  refine ⟨hoccurs, hfits, _, hvalue, ?_, hvalues _ _ hvalue⟩
  exact .entry (mem_cons_of_mem _ mem_cons_self) (.entry mem_cons_self .int)

end PhpFlow
