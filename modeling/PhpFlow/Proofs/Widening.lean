import PhpFlow.Proofs.Folding
import PhpFlow.Proofs.Membership

/-!
# Operations on operands of wider types

Whoever knows less about the operands of an operation gets a wider type for its result, with exceptions: sums
of arrays, bitwise operations of texts, and `??` with an unknown left operand.
-/
namespace PhpFlow

open List

namespace TypeUnion

variable {u v w x : TypeUnion}

def Within (u v : TypeUnion) : Prop := ∀ a ∈ u.atoms, v.contains a = true

instance (u v : TypeUnion) : Decidable (u.Within v) :=
  inferInstanceAs (Decidable (∀ a ∈ u.atoms, v.contains a = true))

/-- A union as types are built: it is not empty, and its atoms are in order. -/
structure Proper (u : TypeUnion) : Prop where
  nonempty : u.atoms ≠ []
  ascending : Atom.Ascending u.atoms

theorem proper_ofList {as : List Atom} (h : as ≠ []) : (ofList as).Proper where
  nonempty hnil := by
    obtain ⟨a, ha⟩ := exists_mem_of_ne_nil as h
    obtain ⟨b, hb, -⟩ := exists_mem_ofList ha
    rw [hnil] at hb
    cases hb
  ascending := ascending_ofList as

theorem within_iff : u.Within v ↔ ∀ a, u.contains a = true → v.contains a = true := by
  constructor
  · intro h a ha
    obtain ⟨b, hb, hab⟩ := contains_iff.mp ha
    exact contains_of_sameKey hab (h b hb)
  · exact fun h a ha => h a (contains_of_mem ha)

theorem Within.refl (u : TypeUnion) : u.Within u := fun _ => contains_of_mem

theorem Within.trans (h : u.Within v) (h' : v.Within w) : u.Within w :=
  fun a ha => within_iff.mp h' a (h a ha)

theorem within_prim {p : Primitive} : (prim p).Within v ↔ v.contains (.primitive p) = true := by
  simp [Within, prim, single]

theorem contains_numberType {a : Atom} :
    Operator.numberType.contains a = true ↔ a = .primitive .int ∨ a = .primitive .float := by
  rw [Operator.numberType, contains_ofList]
  simp [Atom.sameKey_primitive]

/-- What holds of all atoms of the wider type holds of all atoms of the narrower one. -/
theorem Within.all {p : Atom → Bool} (h : u.Within v) (hp : ∀ a b, a.SameKey b → p a = p b)
    (hv : v.atoms.all p = true) : u.atoms.all p = true := by
  rw [all_eq_true] at hv ⊢
  intro a ha
  obtain ⟨b, hb, hab⟩ := contains_iff.mp (h a ha)
  rw [hp a b hab, hv b hb]

theorem Within.onlyArrays (h : u.Within v) (hu : u.Proper) (hv : v.onlyArrays = true) :
    u.onlyArrays = true := by
  obtain ⟨-, hv⟩ := Bool.and_eq_true_iff.mp hv
  rw [TypeUnion.onlyArrays, h.all (fun _ _ hab => hab.isArrayLike) hv]
  simp [isEmpty, hu.nonempty]

theorem Within.allAmong (h : u.Within v) (hu : u.Proper) {ps : List Primitive}
    (hv : v.allAmong ps = true) : u.allAmong ps = true := by
  obtain ⟨-, hv⟩ := Bool.and_eq_true_iff.mp hv
  have hp : ∀ a b : Atom, a.SameKey b → ps.any a.isPrimitive = ps.any b.isPrimitive := by
    intro a b hab
    rw [show a.isPrimitive = b.isPrimitive from funext hab.isPrimitive]
  rw [TypeUnion.allAmong, h.all hp hv]
  simp [isEmpty, hu.nonempty]

/-- In order an atom stands once, so that nothing but the whole is within a single primitive. -/
theorem Within.isPrimitive (h : u.Within v) (hu : u.Proper) {p : Primitive}
    (hv : v.isPrimitive p = true) : u.isPrimitive p = true := by
  obtain ⟨bs⟩ := v
  obtain ⟨as⟩ := u
  match bs, hv with
  | [b], hb =>
    have hall : ∀ a ∈ as, a = .primitive p := by
      intro a ha
      obtain ⟨c, hc, hac⟩ := contains_iff.mp (h a ha)
      obtain rfl := mem_singleton.mp hc
      exact Atom.isPrimitive_iff.mp ((hac.isPrimitive p).trans hb)
    match as, hu, hall with
    | [], hu, _ => exact absurd rfl hu.nonempty
    | [a], _, hall => exact Atom.isPrimitive_iff.mpr (hall a mem_cons_self)
    | a :: a' :: as, hu, hall =>
      have hsame : ¬ a.SameKey a' := (rel_of_pairwise_cons hu.ascending mem_cons_self).2
      rw [hall a mem_cons_self, hall a' (mem_cons_of_mem _ mem_cons_self)] at hsame
      exact absurd rfl hsame

theorem Within.isNullable (h : u.Within v) (hu : u.isNullable = true) : v.isNullable = true := by
  obtain ⟨a, ha, hnull⟩ := any_eq_true.mp hu
  obtain ⟨b, hb, hab⟩ := contains_iff.mp (h a ha)
  exact any_eq_true.mpr ⟨b, hb, hab.isNull.symm.trans hnull⟩

theorem Within.withoutNull (h : u.Within v) : u.withoutNull.Within v.withoutNull := by
  rw [within_iff] at h ⊢
  intro a ha
  rw [contains_withoutNull] at ha ⊢
  exact ⟨h a ha.1, ha.2⟩

theorem within_withoutNull (hu : u.isNullable = false) : u.Within u.withoutNull := by
  intro a ha
  exact contains_withoutNull.mpr ⟨contains_of_mem ha, eq_false_of_ne_true (any_eq_false.mp hu a ha)⟩

theorem withoutNull_within (u : TypeUnion) : u.withoutNull.Within u :=
  within_iff.mpr fun _ ha => (contains_withoutNull.mp ha).1

theorem union_within_iff : (u.union v).Within w ↔ u.Within w ∧ v.Within w := by
  simp only [within_iff, contains_union, or_imp, forall_and]

theorem Within.union (hu : u.Within v) (hw : w.Within x) : (u.union w).Within (v.union x) := by
  rw [union_within_iff, within_iff, within_iff]
  exact ⟨fun a ha => contains_union.mpr (.inl (within_iff.mp hu a ha)),
    fun a ha => contains_union.mpr (.inr (within_iff.mp hw a ha))⟩

end TypeUnion

def KnownWithin : Option TypeUnion → Option TypeUnion → Prop
  | _, none => True
  | none, some _ => False
  | some u, some v => u.Within v

/-- The types that an operation is told of its operands when it asks in the state `s`. -/
structure Operands.Types (o : Operands) (s : State) (l r : Option TypeUnion) : Prop where
  left : (o.leftType s).1 = .ok l
  right : (o.rightType s).1 = .ok r
  leftProper : ∀ u ∈ l, u.Proper
  rightProper : ∀ u ∈ r, u.Proper

def Both (p : TypeUnion → Bool) (l r : Option TypeUnion) : Prop := l.any p = true ∧ r.any p = true

instance (p : TypeUnion → Bool) (l r : Option TypeUnion) : Decidable (Both p l r) :=
  inferInstanceAs (Decidable (_ ∧ _))

def Narrowable (p : TypeUnion → Bool) : Prop := ∀ u v : TypeUnion, u.Within v → u.Proper → p v = true → p u = true

/-- The operands in the narrower types have what those in the wider types have. -/
theorem Both.of_within {p : TypeUnion → Bool} {l r l' r' : Option TypeUnion} (h : Both p l' r')
    (hp : Narrowable p) (hl : KnownWithin l l') (hr : KnownWithin r r') (hlp : ∀ u ∈ l, u.Proper)
    (hrp : ∀ u ∈ r, u.Proper) : Both p l r := by
  have hany : ∀ m m' : Option TypeUnion, KnownWithin m m' → (∀ u ∈ m, u.Proper) → m'.any p = true →
      m.any p = true := by
    intro m m' hm hmp hm'
    cases m' with
    | none => cases hm'
    | some v =>
      cases m with
      | none => exact hm.elim
      | some u => exact hp u v hm (hmp u rfl) hm'
  exact ⟨hany l l' hl hlp h.1, hany r r' hr hrp h.2⟩

theorem narrowable_allAmong (ps : List Primitive) : Narrowable (·.allAmong ps) := fun _ _ h hu => h.allAmong hu

theorem narrowable_isPrimitive (p : Primitive) : Narrowable (·.isPrimitive p) := fun _ _ h hu => h.isPrimitive hu

namespace Operator

section Losses

variable (op : Operator) (l r l' r' : Option TypeUnion)

/-- The operands are narrow enough for an integer, and in the wider types a float makes all of the result
one. -/
def LosesInteger : Prop :=
  op ∈ [add, subtract, multiply, divide, power] ∧ Both (·.allAmong integerLike) l r ∧
    Both (·.allAmong (.float :: integerLike)) l' r' ∧ ¬ Both (·.allAmong integerLike) l' r'

/-- The sum is known to be of arrays only in the narrower types. -/
def LosesArray : Prop :=
  op = add ∧ Both (·.onlyArrays) l r ∧ ¬ Both (·.onlyArrays) l' r'

/-- The operation is known to be on texts only in the narrower types. -/
def LosesText : Prop :=
  op ∈ [bitAnd, bitOr, bitXor] ∧ Both (·.isPrimitive .string) l r ∧ ¬ Both (·.isPrimitive .string) l' r'

/-- The left operand is no longer known, and the right one does not cover what it was. -/
def LosesLeft : Prop :=
  op = coalesce ∧ l' = none ∧ ∃ u ∈ l, ∃ v ∈ r', ¬ u.withoutNull.Within v

instance : Decidable (op.LosesInteger l r l' r') :=
  inferInstanceAs (Decidable (_ ∧ _))

instance : Decidable (op.LosesArray l r l' r') :=
  inferInstanceAs (Decidable (_ ∧ _))

instance : Decidable (op.LosesText l r l' r') :=
  inferInstanceAs (Decidable (_ ∧ _))

instance : Decidable (op.LosesLeft l l' r') :=
  inferInstanceAs (Decidable (_ ∧ _))

def numericType : TypeUnion :=
  if op = modulo then .prim .int
  else if Both (·.allAmong integerLike) l r then
    if op = divide || op = power then numberType else .prim .int
  else if Both (·.allAmong (.float :: integerLike)) l r then .prim .float
  else numberType

end Losses

section Arithmetic

variable {op : Operator} {o o' : Operands} {s s' : State} {l r l' r' t t' : TypeUnion}

theorem arithmeticType_of_numbers (hl : l.onlyArrays = false) (hr : r.onlyArrays = false) :
    op.arithmeticType o l r s = (.ok (some (op.numericType (some l) (some r))), []) := by
  have hboth (ps : List Primitive) :
      Both (·.allAmong ps) (some l) (some r) ↔ (l.allAmong ps && r.allAmong ps) = true := by
    simp [Both]
  simp only [arithmeticType, numericType, hboth, hl, hr, Bool.and_false, Bool.false_eq_true, if_false,
    Bool.or_self]
  split_ifs <;> rfl

/-- An arithmetic operation of a known type is a sum of arrays, or it is on numbers. -/
theorem arithmeticType_eq_some (h : (op.arithmeticType o l r s).1 = .ok (some t)) :
    (op = add ∧ l.onlyArrays = true ∧ r.onlyArrays = true ∧ t = .prim .array) ∨
    (l.onlyArrays = false ∧ r.onlyArrays = false ∧ t = op.numericType (some l) (some r)) := by
  by_cases hnumbers : l.onlyArrays = false ∧ r.onlyArrays = false
  · rw [arithmeticType_of_numbers hnumbers.1 hnumbers.2] at h
    exact .inr ⟨hnumbers.1, hnumbers.2, (Option.some.inj (Except.ok.inj h)).symm⟩
  · have hsome : (l.onlyArrays || r.onlyArrays) = true := by
      rw [Bool.or_eq_true]
      by_contra hnot
      rw [not_or, Bool.not_eq_true, Bool.not_eq_true] at hnot
      exact hnumbers hnot
    unfold arithmeticType at h
    split at h
    · next harrays =>
      simp only [Bool.and_eq_true, decide_eq_true_eq] at harrays
      exact .inl ⟨harrays.1.1, harrays.1.2, harrays.2, (Option.some.inj (Except.ok.inj h)).symm⟩
    · -- The operands do not fit; writing their types may fail, but a type never comes back.
      cases hl : l.write <;> cases hr : r.write <;>
        simp [Query.fst_bind, Query.ofExcept, Except.bind, Query.report, Pure.pure, Query.pure, hl, hr] at h

theorem contains_numericType {m n : Option TypeUnion} {a : Atom}
    (h : (op.numericType m n).contains a = true) : a = .primitive .int ∨ a = .primitive .float := by
  unfold numericType at h
  split_ifs at h
  · exact .inl (TypeUnion.contains_prim.mp h)
  · exact TypeUnion.contains_numberType.mp h
  · exact .inl (TypeUnion.contains_prim.mp h)
  · exact .inr (TypeUnion.contains_prim.mp h)
  · exact TypeUnion.contains_numberType.mp h

theorem numericType_within_numberType (m n : Option TypeUnion) : (op.numericType m n).Within numberType :=
  fun _ ha => TypeUnion.contains_numberType.mpr (contains_numericType (TypeUnion.contains_of_mem ha))

/-- Numbers stay within wider numbers unless an integer is lost. -/
theorem numericType_within {m n m' n' : Option TypeUnion}
    (hop : op ∈ [add, subtract, multiply, divide, power, modulo]) (hm : KnownWithin m m')
    (hn : KnownWithin n n') (hmp : ∀ u ∈ m, u.Proper) (hnp : ∀ u ∈ n, u.Proper)
    (hkept : ¬ op.LosesInteger m n m' n') : (op.numericType m n).Within (op.numericType m' n') := by
  by_cases hmod : op = modulo
  · simp only [numericType, if_pos hmod]
    exact .refl _
  have harith : op ∈ [add, subtract, multiply, divide, power] := by simpa [hmod] using hop
  by_cases hint' : Both (·.allAmong integerLike) m' n'
  · have hint := hint'.of_within (narrowable_allAmong _) hm hn hmp hnp
    simp only [numericType, if_neg hmod, if_pos hint, if_pos hint']
    exact .refl _
  · by_cases hnum' : Both (·.allAmong (.float :: integerLike)) m' n'
    · have hnum := hnum'.of_within (narrowable_allAmong _) hm hn hmp hnp
      have hint : ¬ Both (·.allAmong integerLike) m n := fun h => hkept ⟨harith, h, hnum', hint'⟩
      simp only [numericType, if_neg hmod, if_neg hint, if_neg hint', if_pos hnum, if_pos hnum']
      exact .refl _
    · have hwide : op.numericType m' n' = numberType := by
        simp only [numericType, if_neg hmod, if_neg hint', if_neg hnum']
      rw [hwide]
      exact numericType_within_numberType m n

/-- Among arithmetic operations that keep integers only a sum of arrays is lost. -/
theorem arithmeticType_within_iff (hop : op ∈ [add, subtract, multiply, divide, power, modulo])
    (hl : l.Within l') (hr : r.Within r') (hlp : l.Proper) (hrp : r.Proper)
    (ht : (op.arithmeticType o l r s).1 = .ok (some t))
    (ht' : (op.arithmeticType o' l' r' s').1 = .ok (some t'))
    (hkept : ¬ op.LosesInteger (some l) (some r) (some l') (some r')) :
    t.Within t' ↔ ¬ op.LosesArray (some l) (some r) (some l') (some r') := by
  rcases arithmeticType_eq_some ht with ⟨hadd, hla, hra, rfl⟩ | ⟨hla, hra, rfl⟩ <;>
    rcases arithmeticType_eq_some ht' with ⟨-, hla', hra', rfl⟩ | ⟨hla', hra', rfl⟩
  · have hnot : ¬ op.LosesArray (some l) (some r) (some l') (some r') := fun h => h.2.2 ⟨hla', hra'⟩
    exact iff_of_true (.refl _) hnot
  · have hlost : op.LosesArray (some l) (some r) (some l') (some r') :=
      ⟨hadd, ⟨hla, hra⟩, by simp [Both, hla']⟩
    rw [TypeUnion.within_prim]
    constructor
    · intro h
      rcases contains_numericType h with h | h <;> cases h
    · exact fun h => absurd hlost h
  · rw [hl.onlyArrays hlp hla'] at hla
    cases hla
  · have hnot : ¬ op.LosesArray (some l) (some r) (some l') (some r') := by simp [LosesArray, Both, hla]
    refine iff_of_true (numericType_within hop hl hr ?_ ?_ hkept) hnot
    · rintro _ ⟨⟩
      exact hlp
    · rintro _ ⟨⟩
      exact hrp

end Arithmetic

theorem bitwiseType_eq (op : Operator) (l r : Option TypeUnion) : op.bitwiseType l r =
    if op ∈ [bitAnd, bitOr, bitXor] ∧ Both (·.isPrimitive .string) l r then .prim .string
    else .prim .int := by
  cases op <;> cases l <;> cases r <;> simp [bitwiseType, Both]

/-- Only the operation on two texts is lost among bitwise ones. -/
theorem bitwiseType_within_iff {op : Operator} {l r l' r' : Option TypeUnion} (hl : KnownWithin l l')
    (hr : KnownWithin r r') (hlp : ∀ u ∈ l, u.Proper) (hrp : ∀ u ∈ r, u.Proper) :
    (op.bitwiseType l r).Within (op.bitwiseType l' r') ↔ ¬ op.LosesText l r l' r' := by
  have hapart : ¬ (TypeUnion.prim .string).Within (.prim .int) := by decide
  rw [bitwiseType_eq, bitwiseType_eq]
  by_cases htexts : op ∈ [bitAnd, bitOr, bitXor] ∧ Both (·.isPrimitive .string) l r
  · by_cases h' : Both (·.isPrimitive .string) l' r'
    · rw [if_pos htexts, if_pos ⟨htexts.1, h'⟩]
      exact iff_of_true (.refl _) fun h => h.2.2 h'
    · rw [if_pos htexts, if_neg fun h => h' h.2]
      exact iff_of_false hapart fun h => h ⟨htexts.1, htexts.2, h'⟩
  · have htexts' : ¬ (op ∈ [bitAnd, bitOr, bitXor] ∧ Both (·.isPrimitive .string) l' r') := fun h =>
      htexts ⟨h.1, h.2.of_within (narrowable_isPrimitive _) hl hr hlp hrp⟩
    rw [if_neg htexts, if_neg htexts']
    exact iff_of_true (.refl _) fun h => htexts ⟨h.1, h.2.1⟩

section Coalescing

variable {l l' t t' : TypeUnion} {r r' : Option TypeUnion}

/-- The type of `??` on a known left operand has what the operand is besides null, and, if it may be null,
the right operand. -/
theorem coalesceType_eq_some (h : coalesceType (some l) r = some t) :
    (l.isNullable = true ∧ ∃ v, r = some v ∧ t = l.withoutNull.union v) ∨ (l.isNullable = false ∧ t = l) := by
  rw [coalesceType] at h
  split at h
  · next hnull =>
    obtain ⟨v, rfl, rfl⟩ := Option.map_eq_some_iff.mp h
    exact .inl ⟨hnull, v, rfl, rfl⟩
  · next hnull => exact .inr ⟨eq_false_of_ne_true hnull, (Option.some.inj h).symm⟩

/-- Nothing is lost if the left operand stays known. -/
theorem coalesceType_within (hl : l.Within l') (hr : KnownWithin r r')
    (ht : coalesceType (some l) r = some t) (ht' : coalesceType (some l') r' = some t') : t.Within t' := by
  rcases coalesceType_eq_some ht with ⟨hnull, v, rfl, rfl⟩ | ⟨hnull, rfl⟩
  · rcases coalesceType_eq_some ht' with ⟨-, v', rfl, rfl⟩ | ⟨hnull', rfl⟩
    · exact hl.withoutNull.union hr
    · rw [hl.isNullable hnull] at hnull'
      cases hnull'
  · rcases coalesceType_eq_some ht' with ⟨-, v', rfl, rfl⟩ | ⟨-, rfl⟩
    · have hleft := (TypeUnion.union_within_iff.mp (TypeUnion.Within.refl (l'.withoutNull.union v'))).1
      exact (TypeUnion.within_withoutNull hnull).trans (hl.withoutNull.trans hleft)
    · exact hl

/-- If the left operand is no longer known only the right one is left. -/
theorem coalesceType_within_right_iff {v : TypeUnion} (hr : KnownWithin r (some v))
    (ht : coalesceType (some l) r = some t) : t.Within v ↔ l.withoutNull.Within v := by
  rcases coalesceType_eq_some ht with ⟨-, w, rfl, rfl⟩ | ⟨hnull, rfl⟩
  · rw [TypeUnion.union_within_iff]
    exact and_iff_left hr
  · exact ⟨(TypeUnion.withoutNull_within t).trans, (TypeUnion.within_withoutNull hnull).trans⟩

theorem coalesceType_within_iff {l l' : Option TypeUnion} (hl : KnownWithin l l') (hr : KnownWithin r r')
    (ht : coalesceType l r = some t) (ht' : coalesceType l' r' = some t') :
    t.Within t' ↔ ¬ coalesce.LosesLeft l l' r' := by
  match l, l', hl with
  | some u, some u', hl =>
    have hnot : ¬ coalesce.LosesLeft (some u) (some u') r' := fun h => Option.some_ne_none _ h.2.1
    exact iff_of_true (coalesceType_within hl hr ht ht') hnot
  | none, none, _ =>
    obtain rfl : r = some t := ht
    obtain rfl : r' = some t' := ht'
    have hnot : ¬ coalesce.LosesLeft none none (some t') := by simp [LosesLeft]
    exact iff_of_true hr hnot
  | some u, none, _ =>
    obtain rfl : r' = some t' := ht'
    rw [coalesceType_within_right_iff hr ht]
    simp [LosesLeft]

end Coalescing

section Answers

variable {op : Operator} {o : Operands} {s : State} {l r : Option TypeUnion} {t : TypeUnion}

theorem type_of_arithmetic (hop : op ∈ [add, subtract, multiply, divide, power, modulo])
    (ho : o.Types s l r) (h : (op.type o s).1 = .ok (some t)) :
    ∃ u v, l = some u ∧ r = some v ∧ (op.arithmeticType o u v s).1 = .ok (some t) := by
  obtain ⟨f, htype, hsome, hleft, hright⟩ : ∃ f : Option TypeUnion → Option TypeUnion → Query (Option TypeUnion),
      op.type o = (do f (← o.leftType) (← o.rightType)) ∧ (∀ u v, f (some u) (some v) = op.arithmeticType o u v) ∧
      (∀ r, f none r = pure none) ∧ ∀ u, f (some u) none = pure none := by
    simp only [mem_cons, not_mem_nil, or_false] at hop
    rcases hop with rfl | rfl | rfl | rfl | rfl | rfl <;>
      exact ⟨_, rfl, fun _ _ => rfl, fun _ => rfl, fun _ => rfl⟩
  rw [htype, Query.fst_bind, ho.left, Except.bind, Query.fst_bind, ho.right, Except.bind] at h
  cases l with
  | none =>
    rw [hleft] at h
    cases h
  | some u =>
    cases r with
    | none =>
      rw [hright] at h
      cases h
    | some v =>
      rw [hsome] at h
      exact ⟨u, v, rfl, rfl, h⟩

theorem type_of_bitwise (hop : op ∈ [bitAnd, bitOr, bitXor, shiftLeft, shiftRight]) (ho : o.Types s l r) :
    (op.type o s).1 = .ok (some (op.bitwiseType l r)) := by
  have htype : op.type o = (do
      let left ← o.leftType
      let right ← o.rightType
      return some (op.bitwiseType left right)) := by
    simp only [mem_cons, not_mem_nil, or_false] at hop
    rcases hop with rfl | rfl | rfl | rfl | rfl <;> rfl
  rw [htype, Query.fst_bind, ho.left, Except.bind, Query.fst_bind, ho.right, Except.bind]
  rfl

theorem type_of_coalesce (ho : o.Types s l r) : (coalesce.type o s).1 = .ok (coalesceType l r) := by
  rw [type, Query.fst_bind, ho.left, Except.bind, Query.fst_bind, ho.right, Except.bind]
  rfl

end Answers

/-- The type of an operation and the type of the same operation when less is known of its operands. Where
no integer is lost to a float, every member of the one is a member of the other except in three cases, and
in those it is not so: a sum is no longer known to be of arrays, a bitwise operation no longer to be on
texts, or the left operand of `??` is no longer known and had a member that the right one does not have. -/
theorem type_within_iff_nothing_lost (op : Operator) {o o' : Operands} {s s' : State}
    {l r l' r' : Option TypeUnion} {t t' : TypeUnion} (ho : o.Types s l r) (ho' : o'.Types s' l' r')
    (hl : KnownWithin l l') (hr : KnownWithin r r') (ht : (op.type o s).1 = .ok (some t))
    (ht' : (op.type o' s').1 = .ok (some t')) (hkept : ¬ op.LosesInteger l r l' r') :
    t.Within t' ↔ ¬ (op.LosesArray l r l' r' ∨ op.LosesText l r l' r' ∨ op.LosesLeft l l' r') := by
  cases op with
  | add | subtract | multiply | divide | power | modulo =>
    obtain ⟨u, v, rfl, rfl, ht⟩ := type_of_arithmetic (by simp) ho ht
    obtain ⟨u', v', rfl, rfl, ht'⟩ := type_of_arithmetic (by simp) ho' ht'
    rw [arithmeticType_within_iff (by simp) hl hr (ho.leftProper u rfl) (ho.rightProper v rfl) ht ht' hkept]
    simp [LosesText, LosesLeft]
  | bitAnd | bitOr | bitXor | shiftLeft | shiftRight =>
    rw [type_of_bitwise (by simp) ho] at ht
    rw [type_of_bitwise (by simp) ho'] at ht'
    obtain rfl := Option.some.inj (Except.ok.inj ht)
    obtain rfl := Option.some.inj (Except.ok.inj ht')
    rw [bitwiseType_within_iff hl hr ho.leftProper ho.rightProper]
    simp [LosesArray, LosesLeft]
  | coalesce =>
    rw [type_of_coalesce ho] at ht
    rw [type_of_coalesce ho'] at ht'
    rw [coalesceType_within_iff hl hr (Except.ok.inj ht) (Except.ok.inj ht')]
    simp [LosesArray, LosesText]
  | _ =>
    -- What is left gives one type whatever the operands are.
    obtain rfl : t = t' := Option.some.inj (Except.ok.inj (ht.symm.trans ht'))
    simp [LosesArray, LosesText, LosesLeft, TypeUnion.Within.refl]

def ofTypes (l r : List Atom) : Operands :=
  .constant none none none (some (.ofList l)) (some (.ofList r)) none none none

theorem types_ofTypes {l r : List Atom} (hl : l ≠ []) (hr : r ≠ []) (s : State) :
    (ofTypes l r).Types s (some (.ofList l)) (some (.ofList r)) where
  left := rfl
  right := rfl
  leftProper := by
    rintro _ ⟨⟩
    exact TypeUnion.proper_ofList hl
  rightProper := by
    rintro _ ⟨⟩
    exact TypeUnion.proper_ofList hr

/-- The sum of integers is an integer, and still may be one if the operands may be an array and a text. -/
theorem sum_of_integers_within :
    let s := State.new {} {} none .discarding
    let ints := ofTypes [.primitive .int] [.primitive .int]
    let more := ofTypes [.primitive .array, .primitive .int] [.primitive .int, .primitive .string]
    (add.type ints s).1 = .ok (some (.prim .int)) ∧ (add.type more s).1 = .ok (some numberType) ∧
    (TypeUnion.prim .int).Within numberType := by
  intro s ints more
  have hints : (add.type ints s).1 = .ok (some (.prim .int)) := rfl
  have hmore : (add.type more s).1 = .ok (some numberType) := rfl
  have hwithin := type_within_iff_nothing_lost add (types_ofTypes (by simp) (by simp) s)
    (types_ofTypes (by simp) (by simp) s) (show TypeUnion.Within _ _ by decide)
    (show TypeUnion.Within _ _ by decide) hints hmore (by decide)
  exact ⟨hints, hmore, hwithin.mpr (by decide)⟩

/-- Bit by bit two texts give a text, but if the left one may as well be an integer the result is said to be
an integer. -/
theorem possible_integer_loses_text :
    let s := State.new {} {} none .discarding
    let texts := ofTypes [.primitive .string] [.primitive .string]
    let more := ofTypes [.primitive .int, .primitive .string] [.primitive .string]
    (bitAnd.type texts s).1 = .ok (some (.prim .string)) ∧ (bitAnd.type more s).1 = .ok (some (.prim .int)) ∧
    ¬ (TypeUnion.prim .string).Within (.prim .int) :=
  ⟨rfl, rfl, by decide⟩

end Operator

end PhpFlow
