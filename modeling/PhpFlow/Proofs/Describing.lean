import PhpFlow.Proofs.Folding
import PhpFlow.Proofs.Inhabitants

/-!
# Types that describe a value

A type describes a value if all its atoms are about values of that kind and it admits the value. Of a
number it may be content to say that it is one: then it does not tell an integer from a double. The values
of arithmetic are integers or doubles by a rule that the types follow only in part.
-/
namespace PhpFlow

open List

variable {α β : Type} {s : State}

theorem exists_of_bind_ok {r : Except Fault α} {f : α → Except Fault β} {b : β} (h : r >>= f = .ok b) :
    ∃ a, r = .ok a ∧ f a = .ok b := by
  cases r with
  | error e => cases h
  | ok a => exact ⟨a, rfl, h⟩

theorem exists_of_map_ok {r : Except Fault α} {f : α → β} {b : β} (h : r.map f = .ok b) :
    ∃ a, r = .ok a ∧ f a = b := by
  cases r with
  | error e => cases h
  | ok a => exact ⟨a, rfl, Except.ok.inj h⟩

namespace Query

variable {a b : α}

def Gives (s : State) (q : Query α) (a : α) : Prop := (q s).1 = .ok a

theorem exists_gives {q : Query (Option α)} {p : α → Bool}
    (h : ((q s).1.toOption.bind id).any p = true) : ∃ a, q.Gives s (some a) ∧ p a = true := by
  unfold Gives
  cases hq : (q s).1 with
  | error e =>
    rw [hq] at h
    cases h
  | ok found =>
    rw [hq] at h
    cases found with
    | none => cases h
    | some a => exact ⟨a, rfl, h⟩

@[simp] theorem gives_pure : (Pure.pure a : Query α).Gives s b ↔ a = b := by
  change Except.ok a = Except.ok (ε := Fault) b ↔ _
  simp

@[simp] theorem gives_queryPure : (Query.pure a).Gives s b ↔ a = b := gives_pure

@[simp] theorem gives_ask {f : State → α} : (Query.ask f).Gives s a ↔ f s = a := by
  simp [Gives, Query.ask]

@[simp] theorem gives_ofExcept {r : Except Fault α} : (Query.ofExcept r).Gives s a ↔ r = .ok a :=
  Iff.rfl

@[simp] theorem gives_bind {q : Query α} {f : α → Query β} {b : β} :
    (q >>= f).Gives s b ↔ ∃ a, q.Gives s a ∧ (f a).Gives s b := by
  rw [Gives, fst_bind]
  cases h : (q s).1 with
  | error e => simp [Gives, h, Except.bind]
  | ok a => simp [Gives, h, Except.bind]

theorem Gives.unique {q : Query α} (ha : q.Gives s a) (hb : q.Gives s b) : a = b :=
  Except.ok.inj (ha.symm.trans hb)

end Query

/-! ## Values and the types that describe them -/

mutual

def Value.isWellKeyed : Value → Bool
  | .array es => entriesAreWellKeyed es
  | _ => true

def entriesAreWellKeyed : List (ArrayKey × Value) → Bool
  | [] => true
  | (k, v) :: es => (Value.lookup? k es).isNone && v.isWellKeyed && entriesAreWellKeyed es

end

def Number.isFloat : Number → Bool
  | float _ => true
  | int _ => false

namespace Atom

def isNamed : Atom → Bool
  | named _ _ => true
  | _ => false

theorem eq_of_isPrimitive {a : Atom} {p : Primitive} (h : a.isPrimitive p) : a = .primitive p := by
  cases a with
  | primitive q =>
    obtain rfl : p = q := by simpa [isPrimitive] using h
    rfl
  | _ => cases h

end Atom

namespace Value

def isFloat : Value → Bool
  | float _ => true
  | _ => false

/-- The atom is about values of this kind; integers and doubles count as one. -/
def isKind (v : Value) (a : Atom) : Bool :=
  match v with
  | null => a.isPrimitive .null
  | bool _ => a.isPrimitive .bool
  | int _ | float _ => a.isPrimitive .int || a.isPrimitive .float
  | string _ => a.isPrimitive .string
  | array _ => a.isArrayLike
  | object _ => a.isNamed

variable {symbols : SymbolTable}

mutual

theorem admits_type (v : Value) (hv : v.isWellKeyed) : v.type.admits symbols v := by
  cases v with
  | null | bool _ | int _ | float _ | string _ => rfl
  | object q =>
    rw [type, TypeUnion.single, TypeUnion.admits_iff]
    exact ⟨_, mem_singleton_self _, by simp [Atom.admits, className?]⟩
  | array es =>
    cases es with
    | nil => rfl
    | cons e es =>
      rw [type, TypeUnion.single, TypeUnion.admits_iff]
      refine ⟨_, mem_singleton_self _, ?_⟩
      simpa [Atom.admits, entries?] using admits_fieldTypes (e :: es) hv (e :: es) fun _ _ h => h

theorem admits_fieldTypes (es : List (ArrayKey × Value)) (hes : entriesAreWellKeyed es)
    (full : List (ArrayKey × Value)) (hfull : ∀ k v, lookup? k es = some v → lookup? k full = some v) :
    fieldsAdmit symbols (fieldTypes es) full := by
  cases es with
  | nil => rw [fieldTypes, fieldsAdmit]
  | cons e es =>
    obtain ⟨k, v⟩ := e
    simp only [entriesAreWellKeyed, Bool.and_eq_true, Option.isNone_iff_eq_none] at hes
    have hhere : lookup? k full = some v := hfull k v (by simp [lookup?])
    have htail : ∀ l w, lookup? l es = some w → lookup? l full = some w := by
      intro l w hw
      refine hfull l w ?_
      have hne : l ≠ k := by
        rintro rfl
        simp [hes.1.1] at hw
      rw [lookup?, if_neg hne, hw]
    rw [fieldTypes, fieldsAdmit, hhere, Bool.and_eq_true]
    exact ⟨admits_type v hes.1.2, admits_fieldTypes es hes.2 full htail⟩

end

theorem canBeTrue_of_isKind {v : Value} {a : Atom} (h : v.isKind a) (hv : v.truth) : a.canBeTrue := by
  cases a with
  | primitive p =>
    cases p with
    | null | void | literalFalse | never => cases v <;> simp_all [isKind, Atom.isPrimitive, truth,
        Atom.isArrayLike, Atom.isNamed]
    | _ => rfl
  | generic _ _ => cases v <;> cases h
  | _ => rfl

end Value

namespace TypeUnion

variable {symbols : SymbolTable} {O O' : Prop} {u : TypeUnion} {v : Value}

theorem eq_prim_of_isPrimitive {p : Primitive} (h : u.isPrimitive p) : u = .prim p := by
  obtain ⟨as⟩ := u
  unfold isPrimitive at h
  split at h
  · next a hatoms =>
    obtain rfl : as = [a] := hatoms
    obtain rfl := Atom.eq_of_isPrimitive h
    rfl
  · cases h

/-- The type says of what kind the value is and admits it, except for a number if `O`. -/
structure Describes (symbols : SymbolTable) (O : Prop) (v : Value) (u : TypeUnion) : Prop where
  nonempty : u.atoms ≠ []
  kind : ∀ a ∈ u.atoms, v.isKind a
  admits : v.isWellKeyed → u.admits symbols v ∨ (O ∧ v.isNumber)

namespace Describes

theorem mono (h : u.Describes symbols O v) (hO : O → O') : u.Describes symbols O' v where
  nonempty := h.nonempty
  kind := h.kind
  admits hv := (h.admits hv).imp_right fun ho => ⟨hO ho.1, ho.2⟩

theorem ofPrimitive {p : Primitive} (hkind : v.isKind (.primitive p)) (h : p.admits v ∨ (O ∧ v.isNumber)) :
    (prim p).Describes symbols O v where
  nonempty := cons_ne_nil _ _
  kind := by
    intro a ha
    obtain rfl : a = .primitive p := mem_singleton.mp ha
    exact hkind
  admits _ := by rwa [admits_prim]

theorem ofAdmitted {p : Primitive} (hp : p ∈ [.null, .bool, .int, .float, .string]) (h : p.admits v) :
    (prim p).Describes symbols O v := by
  refine .ofPrimitive ?_ (.inl h)
  simp only [mem_cons, not_mem_nil, or_false] at hp
  rcases hp with rfl | rfl | rfl | rfl | rfl <;> cases v <;> first | rfl | cases h

theorem ofType (v : Value) : v.type.Describes symbols O v where
  nonempty := by
    cases v with
    | array es => cases es <;> exact cons_ne_nil _ _
    | _ => exact cons_ne_nil _ _
  kind := by
    intro a ha
    cases v with
    | array es => cases es <;> obtain rfl := mem_singleton.mp ha <;> rfl
    | _ => obtain rfl := mem_singleton.mp ha; rfl
  admits hv := .inl (v.admits_type hv)

theorem reordered (h : u.Describes symbols O v) : (ofList u.atoms).Describes symbols O v where
  nonempty := by
    obtain ⟨a, ha⟩ := exists_mem_of_ne_nil _ h.nonempty
    obtain ⟨b, hb, -⟩ := exists_mem_ofList ha
    exact ne_nil_of_mem hb
  kind a ha := h.kind a (mem_ofList ha)
  admits hv := by
    rw [admits_ofList, ← admits_iff]
    exact h.admits hv

/-- Nor does leaving out, for a true value, what cannot be true. -/
theorem whereTrue (h : u.Describes symbols O v) (hv : v.truth) :
    (u.filter Atom.canBeTrue).Describes symbols O v := by
  have hall : u.atoms.filter Atom.canBeTrue = u.atoms :=
    filter_eq_self.mpr fun a ha => Value.canBeTrue_of_isKind (h.kind a ha) hv
  rw [filter, hall]
  exact h.reordered

theorem numberType (hv : v.isNumber) : Operator.numberType.Describes symbols O v := by
  have hatoms : TypeUnion.Describes symbols O v ⟨[.primitive .int, .primitive .float]⟩ := by
    cases v with
    | int _ | float _ =>
      refine ⟨cons_ne_nil _ _, ?_, fun _ => .inl rfl⟩
      simp [Value.isKind, Atom.isPrimitive]
    | _ => cases hv
  exact hatoms.reordered

variable (h : u.Describes symbols O v)

include h

theorem isNullable_iff : u.isNullable ↔ v = .null := by
  rw [isNullable, any_eq_true]
  constructor
  · rintro ⟨a, ha, hnull⟩
    have hkind := h.kind a ha
    obtain rfl := Atom.eq_of_isPrimitive hnull
    cases v <;> first | rfl | cases hkind
  · rintro rfl
    obtain ⟨a, ha⟩ := exists_mem_of_ne_nil _ h.nonempty
    exact ⟨a, ha, h.kind a ha⟩

theorem onlyArrays_iff : u.onlyArrays ↔ ∃ es, v = .array es := by
  have hnonempty : u.isEmpty = false := by simpa [isEmpty] using h.nonempty
  rw [onlyArrays, hnonempty, Bool.not_false, Bool.true_and, all_eq_true]
  constructor
  · intro hall
    obtain ⟨a, ha⟩ := exists_mem_of_ne_nil _ h.nonempty
    have hkind := h.kind a ha
    have harray := hall a ha
    cases a with
    | primitive p =>
      obtain rfl : p = .array := by simpa [Atom.isArrayLike] using harray
      cases v <;> first | exact ⟨_, rfl⟩ | cases hkind
    | list _ | map _ _ | shape _ => cases v <;> first | exact ⟨_, rfl⟩ | cases hkind
    | _ => cases harray
  · rintro ⟨es, rfl⟩ a ha
    exact h.kind a ha

theorem exists_of_isString (hu : u.isPrimitive .string) : ∃ text, v = .string text := by
  obtain rfl := eq_prim_of_isPrimitive hu
  have hkind := h.kind (.primitive .string) (mem_singleton_self _)
  cases v <;> first | exact ⟨_, rfl⟩ | cases hkind

theorem allAmong_numbers (hv : v.isNumber) : u.allAmong [.int, .float] := by
  have hnonempty : u.isEmpty = false := by simpa [isEmpty] using h.nonempty
  rw [allAmong, hnonempty, Bool.not_false, Bool.true_and, all_eq_true]
  intro a ha
  have hkind := h.kind a ha
  cases v with
  | int _ | float _ => simpa [Value.isKind] using hkind
  | _ => cases hv

/-- A type of integers does not admit what counts as a double. -/
theorem of_isFloat {n : Number} (hv : v.toNumber? = .ok (some n))
    (hn : n.isFloat) (hu : u.allAmong Operator.integerLike) : O := by
  rw [allAmong, Bool.and_eq_true, all_eq_true] at hu
  have hatom {a : Atom} (ha : a ∈ u.atoms) : ∃ p ∈ Operator.integerLike, a = .primitive p := by
    obtain ⟨p, hp, hap⟩ := any_eq_true.mp (hu.2 a ha)
    exact ⟨p, hp, Atom.eq_of_isPrimitive hap⟩
  cases v with
  | float x =>
    rcases h.admits rfl with hadmits | ho
    · obtain ⟨a, ha, hax⟩ := admits_iff.mp hadmits
      obtain ⟨p, hp, rfl⟩ := hatom ha
      simp only [Operator.integerLike, mem_cons, not_mem_nil, or_false] at hp
      rcases hp with rfl | rfl | rfl | rfl | rfl <;> cases hax
    · exact ho.1
  | string x =>
    obtain ⟨a, ha⟩ := exists_mem_of_ne_nil _ h.nonempty
    obtain rfl := Atom.eq_of_isPrimitive (h.kind a ha)
    obtain ⟨p, hp, ⟨⟩⟩ := hatom ha
    simp [Operator.integerLike] at hp
  | null | bool _ | int _ =>
    cases hv
    cases hn
  | array _ | object _ => cases hv

end Describes

def isAnyNumber (u : TypeUnion) : Bool :=
  u.atoms.any (·.isPrimitive .int) && u.atoms.any (·.isPrimitive .float)

/-- A type of numbers, doubles among them, of a value that counts as an integer leaves its kind open. -/
theorem Describes.isAnyNumber_or (h : u.Describes symbols O v) {n : Int}
    (hv : v.toNumber? = .ok (some (.int n))) (hfloat : u.allAmong (.float :: Operator.integerLike))
    (hint : ¬ u.allAmong Operator.integerLike) : u.isAnyNumber ∨ O := by
  have hnonempty : u.isEmpty = false := by simpa [isEmpty] using h.nonempty
  simp only [allAmong, hnonempty, Bool.not_false, Bool.true_and, all_eq_true] at hfloat hint
  -- The atom that is not one of the integers is that of the doubles, so the value is a number.
  obtain ⟨a, ha, hnot⟩ : ∃ a ∈ u.atoms, ¬ Operator.integerLike.any a.isPrimitive := by
    simpa using hint
  have hdouble : a.isPrimitive .float := by
    have hany := hfloat a ha
    rw [any_cons, Bool.or_eq_true] at hany
    exact hany.resolve_right hnot
  obtain rfl := Atom.eq_of_isPrimitive hdouble
  have hkind := h.kind _ ha
  cases v with
  | int m =>
    rcases h.admits rfl with hadmits | ho
    · obtain ⟨b, hb, hbm⟩ := admits_iff.mp hadmits
      have hbkind := h.kind b hb
      refine .inl ?_
      rw [isAnyNumber, Bool.and_eq_true, any_eq_true, any_eq_true]
      refine ⟨⟨b, hb, ?_⟩, _, ha, hdouble⟩
      rw [Value.isKind, Bool.or_eq_true] at hbkind
      rcases hbkind with hb | hb
      · exact hb
      · obtain rfl := Atom.eq_of_isPrimitive hb
        cases hbm
    · exact .inr ho.1
  | float x => cases hv
  | _ => cases hkind

end TypeUnion

/-! ## Arithmetic -/

namespace Number

variable {a b c : Number}

theorem isFloat_of_doubles {g : Float → Float → Float}
    (h : (do let x ← a.toFloat; let y ← b.toFloat; return float (g x y)) = Except.ok c) : c.isFloat := by
  obtain ⟨x, -, h⟩ := exists_of_bind_ok h
  obtain ⟨y, -, h⟩ := exists_of_bind_ok h
  cases h
  rfl

theorem isFloat_lift {f : Int → Int → Int} {g : Float → Float → Float} (h : lift f g a b = .ok c)
    (hab : a.isFloat || b.isFloat) : c.isFloat := by
  unfold lift at h
  split at h
  · cases hab
  · exact isFloat_of_doubles h

theorem isFloat_div (h : a.div b = .ok c) (hab : a.isFloat || b.isFloat) : c.isFloat := by
  unfold div at h
  split at h
  · cases hab
  · exact isFloat_of_doubles h

theorem isFloat_pow (h : a.pow b = some c) (hab : a.isFloat || b.isFloat) : c.isFloat := by
  have hmap {x y : Float} (h : (powFloat x y).map float = some c) : c.isFloat := by
    obtain ⟨z, -, rfl⟩ := Option.map_eq_some_iff.mp h
    rfl
  unfold pow at h
  split at h
  · cases hab
  · obtain ⟨x, -, hx⟩ := Option.bind_eq_some_iff.mp h
    exact hmap hx
  · obtain ⟨y, -, hy⟩ := Option.bind_eq_some_iff.mp h
    exact hmap hy
  · exact hmap h

end Number

namespace Value

variable {n : Number} {v : Value}

theorem isNumber_ofNumber (h : ofNumber n = .ok v) : v.isNumber := by
  cases n with
  | float x =>
    cases h
    rfl
  | int k =>
    rw [ofNumber] at h
    split at h
    · cases h
      rfl
    · obtain ⟨x, -, rfl⟩ := exists_of_map_ok h
      rfl

theorem isFloat_ofNumber (h : ofNumber n = .ok v) (hn : n.isFloat) : v.isFloat := by
  cases n with
  | float x =>
    cases h
    rfl
  | int k => cases hn

end Value

namespace Operator

variable {o : Operands} {op : Operator} {v : Value}

def isArithmetic : Operator → Bool
  | add | subtract | multiply | divide | power => true
  | _ => false

def integerResult? (op : Operator) (m n : Int) : Option Int :=
  match op with
  | add => some (m + n)
  | subtract => some (m - n)
  | multiply => some (m * n)
  | _ => none

theorem gives_finish {r : Except Fault Number} (h : (numberValue.finish r).Gives s (some v)) :
    ∃ c, r = .ok c ∧ Value.ofNumber c = .ok v := by
  obtain ⟨c, hc, h⟩ := exists_of_bind_ok h
  obtain ⟨w, hw, hv⟩ := exists_of_map_ok h
  obtain rfl : w = v := Option.some.inj hv
  exact ⟨c, hc, hw⟩

/-- The result of arithmetic is a double if an operand is one, and otherwise exact where it can be. -/
theorem exists_of_numberValue (hop : op.isArithmetic) {a b : Number}
    (h : (op.numberValue o a b).Gives s (some v)) :
    ∃ c, Value.ofNumber c = .ok v ∧ (a.isFloat || b.isFloat → c.isFloat) ∧
      ∀ m n, a = .int m → b = .int n → ∀ k, op.integerResult? m n = some k → c = .int k := by
  have exactly {f : Int → Int → Int} {g : Float → Float → Float}
      (hf : ∀ m n, op.integerResult? m n = some (f m n))
      (h : (numberValue.finish (Number.lift f g a b)).Gives s (some v)) :
      ∃ c, Value.ofNumber c = .ok v ∧ (a.isFloat || b.isFloat → c.isFloat) ∧
        ∀ m n, a = .int m → b = .int n → ∀ k, op.integerResult? m n = some k → c = .int k := by
    obtain ⟨c, hc, hv⟩ := gives_finish h
    refine ⟨c, hv, Number.isFloat_lift hc, ?_⟩
    rintro m n rfl rfl k hk
    rw [hf, Option.some.injEq] at hk
    rw [Number.lift, hk] at hc
    exact (Except.ok.inj hc).symm
  cases op with
  | add => exact exactly (fun _ _ => rfl) h
  | subtract => exact exactly (fun _ _ => rfl) h
  | multiply => exact exactly (fun _ _ => rfl) h
  | divide =>
    simp only [numberValue] at h
    split at h
    · simp at h
    · obtain ⟨c, hc, hv⟩ := gives_finish h
      exact ⟨c, hv, Number.isFloat_div hc, fun _ _ _ _ _ hk => nomatch hk⟩
  | power =>
    simp only [numberValue] at h
    split at h
    · simp at h
    · next c hc =>
      obtain ⟨c', hc', hv⟩ := gives_finish h
      obtain rfl := Except.ok.inj hc'
      exact ⟨c, hv, Number.isFloat_pow hc, fun _ _ _ _ _ hk => nomatch hk⟩
  | _ => cases hop

end Operator

end PhpFlow
