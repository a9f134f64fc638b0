import Mathlib.Algebra.Group.Nat.Defs
import PhpFlow.Proofs.Flattening
import PhpFlow.Proofs.Writing

/-!
# Types read back from their texts

What the text of a type is read as means the type again. Only the spelling of a class is not kept, and it does
not count. The one type that has no text is one with too long a number among its keys. Alternatives with the
same key may change places, unless sets list them as they came.
-/
namespace PhpFlow

open List Bool

open Reader KeyToken

/-! ## Numbers -/

theorem Number.hasDigitsWithin_iff {k : Nat} (hk : 0 < k) (n : Nat) :
    Number.hasDigitsWithin k n = true ↔ n < 10 ^ k := by
  induction k generalizing n with
  | zero => cases hk
  | succ k ih =>
    rw [Number.hasDigitsWithin, or_eq_true, decide_eq_true_eq]
    rcases Nat.eq_zero_or_pos k with rfl | hk
    · simp [Number.hasDigitsWithin]
    · have hten : 10 ≤ 10 ^ k := Nat.le_self_pow (by omega) 10
      rw [ih hk, Nat.div_lt_iff_lt_mul (by decide), Nat.pow_succ]
      omega

theorem ArrayKey.key?_label {k : ArrayKey} (hk : k.isWritable = true) : k.label.key? = some k := by
  cases k with
  | text s => rfl
  | int n =>
    have hlength : ¬ Number.digitLimit < (Nat.toDigits 10 n.natAbs).length := by
      rw [Nat.not_lt, Nat.length_toDigits_le_iff (by decide) (by decide)]
      exact (Number.hasDigitsWithin_iff (by decide) n.natAbs).mp hk
    have hvalue : (Nat.toDigits 10 n.natAbs).foldl (fun n d => 10 * n + (d.toNat - 48)) 0 = n.natAbs := by
      have h := Nat.ofDigitChars_ten_toDigits (n := n.natAbs)
      rwa [Nat.ofDigitChars_eq_foldl] at h
    rw [ArrayKey.label, EntryLabel.key?, if_neg hlength]
    simp only [hvalue, decide_eq_true_eq, Option.some.injEq, ArrayKey.int.injEq]
    split <;> omega

/-! ## Names -/

namespace NameContext

variable {ctx : NameContext}
variable {q : QualifiedName}

/-- A class is written with a backslash in front, so no word is mistaken for it. -/
theorem ownWord?_of_isProper (hq : q.IsProper) : ctx.ownWord? q.toText = none := by
  obtain ⟨cs, hcs⟩ := hq.exists_cons
  have hqualified : isQualified q.toText = true := by simp [isQualified, hcs]
  rw [ownWord?, if_pos hqualified]

theorem resolveName_toText (hq : q.IsProper) : ctx.resolveName q.toText = q := by
  obtain ⟨cs, hcs⟩ := hq.exists_cons
  have hslash : q.toText.startsWith "\\" = true := by
    simp [hcs]
  rw [resolveName, if_pos hslash, hq.ofText_toText]

theorem ownWord?_primitive {p : Primitive} (hp : p ≠ .unknown) :
    ctx.ownWord? p.word = some (.primitive p, []) := by
  have hqualified : isQualified p.word = false := by cases p <;> decide
  have hlookup : builtinWords.lookup p.word = some [p] := by
    cases p <;> first | decide | exact absurd rfl hp
  simp only [ownWord?, hqualified, p.lower_word, hlookup]
  rfl

theorem ownWord?_reference (k : Reference) : ctx.ownWord? k.word = some (.reference k none, []) := by
  have hqualified : isQualified k.word = false := by cases k <;> decide
  have hlookup : builtinWords.lookup k.word = none := by cases k <;> decide
  cases k <;> rfl

theorem atomsOf_className (hq : q.IsProper) :
    ctx.atomsOf q.toText = (.named q (withoutLeadingSlashes q.toText), []) := by
  rw [atomsOf, ownWord?_of_isProper hq]
  simp only [resolveName_toText hq]

/-- The text of a name stands for the atom that is written so, but for the spelling of a class. -/
theorem atomsOf_toText {a : Atom} (hplain : a.isPlain = true) (ha : a.Legible ctx.templates) :
    ∃ b, ctx.atomsOf a.toText = (b, []) ∧ b.SameKey a := by
  cases a with
  | primitive p => exact ⟨_, by rw [Atom.toText, atomsOf, ownWord?_primitive ha], rfl⟩
  | named q s => exact ⟨_, atomsOf_className ha, Atom.Alike.sameKey (.named rfl)⟩
  | reference k t =>
    cases t with
    | none =>
      have htext : (Atom.reference k none).toText = k.word := by cases k <;> rfl
      exact ⟨_, by rw [htext, atomsOf, ownWord?_reference], rfl⟩
    | some q => cases hplain
  | template n => exact ⟨_, by rw [Atom.toText, atomsOf, ha.2 ctx.resolve ctx.order], rfl⟩
  | _ => cases hplain

theorem ownerOf_toText (hq : q.IsProper) : ctx.ownerOf q.toText = q := by
  rw [ownerOf, ownWord?_of_isProper hq]
  exact resolveName_toText hq

end NameContext

/-! ## Alternatives in order -/

namespace Atom

def keys (a : Atom) : List KeyToken × List KeyToken := (a.tokens true, a.tokens false)

variable {as bs : List Atom}

theorem map_keys_congr (h : List.Forall₂ SameKey bs as) : bs.map keys = as.map keys := by
  rw [← List.forall₂_eq_eq_eq, List.forall₂_map_left_iff, List.forall₂_map_right_iff]
  refine h.imp fun {b a} hab => ?_
  exact Prod.ext hab (compare_eq_iff.mp hab.compare_eq)

theorem Ascending.congr (h : List.Forall₂ SameKey bs as) (has : Ascending as) : Ascending bs := by
  have hpairs (cs : List Atom) : Ascending cs ↔
      (cs.map keys).Pairwise fun p q => (compareList p.2 q.2).isLE ∧ ¬ p.1 = q.1 := by
    rw [pairwise_map]
    rfl
  rw [hpairs, map_keys_congr h, ← hpairs]
  exact has

theorem Separated.congr (h : List.Forall₂ SameKey bs as) (has : Separated as) : Separated bs := by
  have hpairs (cs : List Atom) : Separated cs ↔
      ∀ p ∈ cs.map keys, ∀ q ∈ cs.map keys, p.2 = q.2 → p.1 = q.1 := by
    simp only [Separated, compare_eq_iff, forall_mem_map]
    rfl
  rw [hpairs, map_keys_congr h, ← hpairs]
  exact has

end Atom

namespace SetOrder

/-- Atoms like these that stand in order are listed as they stand. -/
def Keeps (σ : SetOrder) (as : List Atom) : Prop :=
  ∀ bs, List.Forall₂ Atom.SameKey bs as → Atom.Ascending bs → σ.ofList bs = ⟨bs⟩

/-- What came first is listed first. -/
def firstCome : SetOrder := ⟨id, .refl⟩

theorem firstCome_keeps (as : List Atom) : firstCome.Keeps as := by
  intro bs _ hbs
  rw [ofList, hbs.apart.distinct_eq, Atom.foldr_place]
  exact congrArg TypeUnion.mk (hbs.imp And.left).insertionSort_eq

/-- Where keys tell the atoms apart, every set keeps their order. -/
theorem keeps_of_separated (σ : SetOrder) {as : List Atom} (h : Atom.Separated as) : σ.Keeps as := by
  intro bs hsame hbs
  rw [ofList_eq (fun _ => rfl) (h.congr hsame), firstCome_keeps as bs hsame hbs]

end SetOrder

mutual

/-- The alternatives of all unions in a type. -/
def Atom.levels : Atom → List (List Atom)
  | .list v => v.levels
  | .map k v => k.levels ++ v.levels
  | .shape fs => fieldLevels fs
  | .callable as r => unionLevels as ++ resultLevels r
  | .generic b as => b.levels ++ unionLevels as
  | .primitive _ | .named _ _ | .classConstant _ _ | .reference _ _ | .template _ => []

def TypeUnion.levels : TypeUnion → List (List Atom)
  | ⟨as⟩ => as :: atomLevels as

def atomLevels : List Atom → List (List Atom)
  | [] => []
  | a :: as => a.levels ++ atomLevels as

def unionLevels : List TypeUnion → List (List Atom)
  | [] => []
  | u :: us => u.levels ++ unionLevels us

def fieldLevels : List ShapeField → List (List Atom)
  | [] => []
  | ⟨_, t, _⟩ :: fs => t.levels ++ fieldLevels fs

def resultLevels : Option TypeUnion → List (List Atom)
  | none => []
  | some u => u.levels

end

/-- Keys tell the alternatives apart in every union of the type. -/
def TypeUnion.Separated (u : TypeUnion) : Prop := ∀ as ∈ u.levels, Atom.Separated as

instance (u : TypeUnion) : Decidable u.Separated := inferInstanceAs (Decidable (∀ as ∈ u.levels, _))

/-! ## Meaning -/

variable {ctx : NameContext}

/-- Alternatives that mean one atom each mean the union of these. -/
theorem TypeExpr.union?_of_singles {as : List TypeAlternative} {bs : List Atom}
    (h : alternativeUnions? ctx as = some (bs.map .single)) :
    (TypeExpr.mk as).union? ctx = some (ctx.order.ofList bs) := by
  have hatoms : (bs.map TypeUnion.single).flatMap TypeUnion.atoms = bs := by
    rw [flatMap_map]
    exact flatMap_singleton' bs
  rw [TypeExpr.union?, h, Option.map_some, SetOrder.flatten, hatoms]

theorem SetOrder.ofList_singleton (σ : SetOrder) (a : Atom) : σ.ofList [a] = .single a :=
  congrArg TypeUnion.mk (perm_singleton.mp (σ.atoms_perm [a]))

theorem NameContext.genericAtom_list (v : TypeUnion) : ctx.genericAtom "array" [v] = .list v := by
  have hlower : Text.lower "array" = "array" := Primitive.lower_word .array
  rfl

theorem NameContext.genericAtom_map (k v : TypeUnion) : ctx.genericAtom "array" [k, v] = .map k v := by
  have hlower : Text.lower "array" = "array" := Primitive.lower_word .array
  rfl

theorem NameContext.genericAtom_classString (q : QualifiedName) (s : String) :
    ctx.genericAtom "class-string" [.single (.named q s)] = .reference .classString (some q) := by
  have hlower : Text.lower "class-string" = "class-string" := Reference.lower_word .classString
  rfl

theorem TypeHead.union?_name {a : Atom} (hplain : a.isPlain = true) (ha : a.Legible ctx.templates) :
    ∃ b, (TypeHead.name a.toText).union? ctx = some (.single b) ∧ b.SameKey a := by
  obtain ⟨b, hb, hsame⟩ := NameContext.atomsOf_toText hplain ha
  refine ⟨b, ?_, hsame⟩
  rw [TypeHead.union?, hb]
  exact congrArg some (ctx.order.ofList_singleton b)

mutual

/-- What an atom is read as means an atom, and the same up to the spelling of classes if sets keep the order
of its alternatives. -/
theorem Atom.union?_head (a : Atom) (ha : a.Legible ctx.templates) (hw : a.isWritable = true) :
    ∃ b, a.head.union? ctx = some (.single b) ∧ ((∀ l ∈ a.levels, ctx.order.Keeps l) → b.SameKey a) := by
  have hname : a.isPlain = true → ∃ b, (TypeHead.name a.toText).union? ctx = some (.single b) ∧
      ((∀ l ∈ a.levels, ctx.order.Keeps l) → b.SameKey a) := fun hplain => by
    obtain ⟨b, hb, hsame⟩ := TypeHead.union?_name hplain ha
    exact ⟨b, hb, fun _ => hsame⟩
  cases a with
  | primitive p => exact hname rfl
  | named q s => exact hname rfl
  | template n => exact hname rfl
  | list v =>
    obtain ⟨v', hv, hsame⟩ := v.union?_expr ha hw
    refine ⟨.list v', ?_, fun h => Atom.Alike.sameKey (.list (hsame h))⟩
    rw [Atom.head, TypeHead.union?, unions?, hv]
    simp [unions?, NameContext.genericAtom_list]
  | map k v =>
    rw [Atom.isWritable, and_eq_true] at hw
    obtain ⟨k', hk, hsame⟩ := k.union?_expr ha.1 hw.1
    obtain ⟨v', hv, hsame'⟩ := v.union?_expr ha.2 hw.2
    refine ⟨.map k' v', ?_, fun h => ?_⟩
    · rw [Atom.head, TypeHead.union?, unions?, unions?, hk, hv]
      simp [unions?, NameContext.genericAtom_map]
    · rw [Atom.levels, forall_mem_append] at h
      exact Atom.Alike.sameKey (.map (hsame h.1) (hsame' h.2))
  | shape fs =>
    obtain ⟨gs, hgs, hsame⟩ := entryFields?_fieldEntries fs ha hw 0
    refine ⟨.shape gs, ?_, fun h => Atom.Alike.sameKey (.shape (hsame h))⟩
    rw [Atom.head, TypeHead.union?, hgs, Option.map_some]
  | callable as r =>
    rw [Atom.isWritable, and_eq_true] at hw
    obtain ⟨us, hus, -, hsame⟩ := unions?_unionExprs as ha.1 hw.1
    obtain ⟨q, hq, hsame'⟩ := resultUnion?_resultExpr r ha.2 hw.2
    refine ⟨.callable us q, ?_, fun h => ?_⟩
    · rw [Atom.head, TypeHead.union?, hus, hq]
      rfl
    · rw [Atom.levels, forall_mem_append] at h
      exact Atom.Alike.sameKey (.callable (hsame h.1) (hsame' h.2))
  | generic b as =>
    obtain ⟨hplain, hb, -, helements, has⟩ := ha
    rw [Atom.isWritable, and_eq_true] at hw
    obtain ⟨c, hc, hsame⟩ := NameContext.atomsOf_toText hplain hb
    obtain ⟨us, hus, hlength, hsame'⟩ := unions?_unionExprs as has hw.2
    refine ⟨.generic c us, ?_, fun h => ?_⟩
    · rw [Atom.head, TypeHead.union?, hus, Option.map_some,
        NameContext.genericAtom_of_takesElements (hlength ▸ helements), hc]
    · rw [Atom.levels, forall_mem_append] at h
      exact Atom.Alike.sameKey (.generic hsame (hsame' h.2))
  | classConstant q c =>
    exact ⟨_, by rw [Atom.head, TypeHead.union?, NameContext.ownerOf_toText ha.1], fun _ => rfl⟩
  | reference k t =>
    cases t with
    | none =>
      have hhead : (Atom.reference k none).head = .name (Atom.reference k none).toText := by cases k <;> rfl
      rw [hhead]
      exact hname rfl
    | some q =>
      obtain ⟨rfl, hq⟩ := ha
      have hclass : alternativeUnions? ctx [⟨false, .name q.toText, 0⟩] =
          some ([.named q (withoutLeadingSlashes q.toText)].map .single) := by
        rw [alternativeUnions?, TypeAlternative.union?, TypeHead.union?, NameContext.atomsOf_className hq]
        simp only [ctx.order.ofList_singleton]
        rfl
      refine ⟨.reference .classString (some q), ?_, fun _ => rfl⟩
      rw [Atom.head, TypeHead.union?, unions?, TypeExpr.union?_of_singles hclass, ctx.order.ofList_singleton]
      exact congrArg (fun a => some (TypeUnion.single a)) (NameContext.genericAtom_classString q _)

theorem TypeUnion.union?_expr (u : TypeUnion) (hu : u.Legible ctx.templates) (hw : u.isWritable = true) :
    ∃ v, u.expr.union? ctx = some v ∧ ((∀ l ∈ u.levels, ctx.order.Keeps l) → v.SameKey u) := by
  obtain ⟨as⟩ := u
  obtain ⟨bs, hbs, hsame⟩ := alternativeUnions?_alternatives as hu.2.2 hw
  refine ⟨_, TypeExpr.union?_of_singles hbs, fun h => ?_⟩
  rw [TypeUnion.levels, forall_mem_cons] at h
  have hsame := hsame h.2
  rw [h.1 bs hsame (hu.2.1.congr hsame), TypeUnion.SameKey, TypeUnion.tokens, TypeUnion.tokens,
    atomTokens_congr hsame]

theorem alternativeUnions?_alternatives (as : List Atom) (has : atomsLegible ctx.templates as)
    (hw : atomsWritable as = true) : ∃ bs, alternativeUnions? ctx (alternatives as) = some (bs.map .single) ∧
      ((∀ l ∈ atomLevels as, ctx.order.Keeps l) → List.Forall₂ Atom.SameKey bs as) := by
  cases as with
  | nil => exact ⟨[], rfl, fun _ => .nil⟩
  | cons a as =>
    rw [atomsWritable, and_eq_true] at hw
    obtain ⟨b, hb, hsame⟩ := a.union?_head has.1 hw.1
    obtain ⟨bs, hbs, hsames⟩ := alternativeUnions?_alternatives as has.2 hw.2
    refine ⟨b :: bs, ?_, fun h => ?_⟩
    · rw [alternatives, alternativeUnions?, TypeAlternative.union?, hb, hbs]
      rfl
    · rw [atomLevels, forall_mem_append] at h
      exact .cons (hsame h.1) (hsames h.2)

theorem unions?_unionExprs (us : List TypeUnion) (hus : unionsLegible ctx.templates us)
    (hw : unionsWritable us = true) :
    ∃ vs, unions? ctx (unionExprs us) = some vs ∧ us.length = vs.length ∧
      ((∀ l ∈ unionLevels us, ctx.order.Keeps l) → List.Forall₂ TypeUnion.SameKey vs us) := by
  cases us with
  | nil => exact ⟨[], rfl, rfl, fun _ => .nil⟩
  | cons u us =>
    rw [unionsWritable, and_eq_true] at hw
    obtain ⟨v, hv, hsame⟩ := u.union?_expr hus.1 hw.1
    obtain ⟨vs, hvs, hlength, hsames⟩ := unions?_unionExprs us hus.2 hw.2
    refine ⟨v :: vs, ?_, congrArg (· + 1) hlength, fun h => ?_⟩
    · rw [unionExprs, unions?, hv, hvs]
      rfl
    · rw [unionLevels, forall_mem_append] at h
      exact .cons (hsame h.1) (hsames h.2)

theorem resultUnion?_resultExpr (r : Option TypeUnion) (hr : resultLegible ctx.templates r)
    (hw : resultWritable r = true) :
    ∃ q, resultUnion? ctx (resultExpr r) = some q ∧
      ((∀ l ∈ resultLevels r, ctx.order.Keeps l) → Option.Rel TypeUnion.SameKey q r) := by
  cases r with
  | none => exact ⟨none, rfl, fun _ => .none⟩
  | some u =>
    obtain ⟨v, hv, hsame⟩ := u.union?_expr hr hw
    refine ⟨some v, ?_, fun h => .some (hsame h)⟩
    rw [resultExpr, resultUnion?, hv]
    rfl

/-- All fields are labelled, so it does not matter from where others would be numbered. -/
theorem entryFields?_fieldEntries (fs : List ShapeField) (hfs : fieldsLegible ctx.templates fs)
    (hw : fieldsWritable fs = true) (next : Int) :
    ∃ gs, entryFields? ctx next (fieldEntries fs) = some gs ∧
      ((∀ l ∈ fieldLevels fs, ctx.order.Keeps l) → List.Forall₂ ShapeField.Alike gs fs) := by
  cases fs with
  | nil => exact ⟨[], rfl, fun _ => .nil⟩
  | cons f fs =>
    obtain ⟨k, t, o⟩ := f
    rw [fieldsWritable, and_eq_true, and_eq_true] at hw
    have hkey : (ArrayKey.orNext next (some k)).1 = k := by cases k <;> rfl
    obtain ⟨u, hu, hsame⟩ := t.union?_expr hfs.2.1 hw.1.2
    obtain ⟨gs, hgs, hsames⟩ := entryFields?_fieldEntries fs hfs.2.2 hw.2 (ArrayKey.orNext next (some k)).2
    refine ⟨⟨k, u, o⟩ :: gs, ?_, fun h => ?_⟩
    · rw [fieldEntries, entryFields?_cons, writtenKey?, ArrayKey.key?_label hw.1.1, hu]
      simp only [Option.map_some, Option.bind_some]
      rw [hgs, hkey]
      rfl
    · rw [fieldLevels, forall_mem_append] at h
      exact .cons ⟨rfl, hsame h.1, rfl⟩ (hsames h.2)

end

theorem NameContext.read_toText {u : TypeUnion} (hu : u.Legible ctx.templates)
    (hplain : u.hasPlainResults = true) (hw : u.isWritable = true) :
    ∃ v, ctx.read u.toText = .ok v ∧ ((∀ l ∈ u.levels, ctx.order.Keeps l) → v.SameKey u) := by
  have hreads : TypeExpr.read? u.toText.toList = some (u.expr, []) := by
    have h := u.takes_toText hu hplain [] (by simp [Opens, skip])
    rwa [append_nil, ← read?_eq] at h
  obtain ⟨v, hv, hsame⟩ := u.union?_expr hu hw
  have hpart : ctx.readPart? u.toText.toList = some (v, []) := by
    rw [readPart?, hreads]
    simp only [hv, Option.map_some]
  refine ⟨v, ?_, hsame⟩
  rw [read]
  simp only [hpart]
  rfl

/-! ## Types without a text -/

def ArrayKey.numbers : ArrayKey → List Int
  | .int n => [n]
  | .text _ => []

mutual

/-- The numbers among the keys of all shapes in a type. -/
def Atom.numbers : Atom → List Int
  | .list v => v.numbers
  | .map k v => k.numbers ++ v.numbers
  | .shape fs => fieldNumbers fs
  | .callable as r => unionNumbers as ++ resultNumbers r
  | .generic b as => b.numbers ++ unionNumbers as
  | .primitive _ | .named _ _ | .classConstant _ _ | .reference _ _ | .template _ => []

def TypeUnion.numbers : TypeUnion → List Int
  | ⟨as⟩ => atomNumbers as

def atomNumbers : List Atom → List Int
  | [] => []
  | a :: as => a.numbers ++ atomNumbers as

def unionNumbers : List TypeUnion → List Int
  | [] => []
  | u :: us => u.numbers ++ unionNumbers us

def fieldNumbers : List ShapeField → List Int
  | [] => []
  | ⟨k, t, _⟩ :: fs => k.numbers ++ t.numbers ++ fieldNumbers fs

def resultNumbers : Option TypeUnion → List Int
  | none => []
  | some u => u.numbers

end

theorem ArrayKey.isWritable_eq_all (k : ArrayKey) : k.isWritable = k.numbers.all Number.isWritable := by
  cases k <;> simp [ArrayKey.isWritable, ArrayKey.numbers]

mutual

theorem Atom.isWritable_eq_all (a : Atom) : a.isWritable = a.numbers.all Number.isWritable := by
  cases a with
  | list v => rw [Atom.isWritable, Atom.numbers, v.isWritable_eq_all]
  | map k v => rw [Atom.isWritable, Atom.numbers, all_append, k.isWritable_eq_all, v.isWritable_eq_all]
  | shape fs => rw [Atom.isWritable, Atom.numbers, fieldsWritable_eq_all]
  | callable as r =>
    rw [Atom.isWritable, Atom.numbers, all_append, unionsWritable_eq_all, resultWritable_eq_all]
  | generic b as =>
    rw [Atom.isWritable, Atom.numbers, all_append, b.isWritable_eq_all, unionsWritable_eq_all]
  | primitive _ | named _ _ | classConstant _ _ | reference _ _ | template _ => rfl

theorem TypeUnion.isWritable_eq_all (u : TypeUnion) : u.isWritable = u.numbers.all Number.isWritable := by
  obtain ⟨as⟩ := u
  rw [TypeUnion.isWritable, TypeUnion.numbers, atomsWritable_eq_all]

theorem atomsWritable_eq_all (as : List Atom) : atomsWritable as = (atomNumbers as).all Number.isWritable := by
  cases as with
  | nil => rfl
  | cons a as => rw [atomsWritable, atomNumbers, all_append, a.isWritable_eq_all, atomsWritable_eq_all]

theorem unionsWritable_eq_all (us : List TypeUnion) :
    unionsWritable us = (unionNumbers us).all Number.isWritable := by
  cases us with
  | nil => rfl
  | cons u us => rw [unionsWritable, unionNumbers, all_append, u.isWritable_eq_all, unionsWritable_eq_all]

theorem fieldsWritable_eq_all (fs : List ShapeField) :
    fieldsWritable fs = (fieldNumbers fs).all Number.isWritable := by
  cases fs with
  | nil => rfl
  | cons f fs =>
    obtain ⟨k, t, o⟩ := f
    rw [fieldsWritable, fieldNumbers, all_append, all_append, k.isWritable_eq_all,
      t.isWritable_eq_all, fieldsWritable_eq_all]

theorem resultWritable_eq_all (r : Option TypeUnion) :
    resultWritable r = (resultNumbers r).all Number.isWritable := by
  cases r with
  | none => rfl
  | some u => rw [resultWritable, resultNumbers, u.isWritable_eq_all]

end

theorem TypeUnion.isWritable_iff (u : TypeUnion) :
    u.isWritable = true ↔ ∀ n ∈ u.numbers, n.natAbs < 10 ^ Number.digitLimit := by
  rw [u.isWritable_eq_all, all_eq_true]
  exact forall₂_congr fun n _ => Number.hasDigitsWithin_iff (by decide) n.natAbs

/-! ## Reading back -/

/-- A type that was read has a text, unless a number among its keys is too long. Every reader with the same
templates reads its text again, and as the same type if keys tell the alternatives in it apart. -/
theorem written_type_reads_back {text : String} {u : TypeUnion} (hctx : ctx.ResolvesProperly)
    (hread : ctx.read text = .ok u) (hplain : u.hasPlainResults = true) :
    ((∃ s, u.write = .ok s) ↔ ∀ n ∈ u.numbers, n.natAbs < 10 ^ Number.digitLimit) ∧
      ∀ s, u.write = .ok s → ∀ resolve order, ∃ v,
        NameContext.read ⟨resolve, ctx.templates, order⟩ s = .ok v ∧ (u.Separated → (v == u) = true) := by
  have hlegible : u.Legible ctx.templates := NameContext.legible_of_read hctx.resolvesNames hread
  rw [← u.isWritable_iff, TypeUnion.write]
  by_cases hw : u.isWritable = true
  · rw [if_pos hw]
    refine ⟨⟨fun _ => hw, fun _ => ⟨_, rfl⟩⟩, ?_⟩
    rintro s ⟨⟩ resolve order
    obtain ⟨v, hv, hsame⟩ := @NameContext.read_toText ⟨resolve, ctx.templates, order⟩ u hlegible hplain hw
    exact ⟨v, hv, fun hsep => decide_eq_true (hsame fun l hl => order.keeps_of_separated (hsep l hl))⟩
  · rw [if_neg hw]
    refine ⟨⟨?_, fun h => absurd h hw⟩, ?_⟩
    · rintro ⟨_, ⟨⟩⟩
    · rintro _ ⟨⟩

/-- What is known of the type at the front of a text holds of the text, if only blanks follow. -/
theorem NameContext.exists_read {text : String} {cs : List Char} (htext : text.toList = cs) {α : Type}
    {f : TypeUnion → α} {x : α}
    (h : (ctx.readPart? cs).map (fun r => (f r.1, Text.trimChars r.2)) = some (x, [])) :
    ∃ u, ctx.read text = .ok u ∧ f u = x := by
  subst htext
  obtain ⟨⟨u, rest⟩, hpart, heq⟩ := Option.map_eq_some_iff.mp h
  obtain ⟨hu, htrim⟩ := Prod.mk.inj heq
  refine ⟨u, ?_, hu⟩
  rw [read]
  simp only [hpart, htrim]
  rfl

def appNames : NameContext where
  resolve text := ⟨"App" :: (QualifiedName.partsOf text).filter fun p => isWord p.toList⟩
  templates := ["T"]

theorem appNames_resolvesProperly : appNames.ResolvesProperly := by
  intro n
  refine ⟨by simp [appNames], ?_⟩
  rintro p (_ | ⟨_, hp⟩)
  · decide
  · exact (mem_filter.mp hp).2

def nestedText : String :=
  "?Foo<T, array-key>|array\x7bb: int, 7?: callable(static, T): class-string<\\C\\D>, list<x>[]\x7d|self::E"

theorem nestedText_reads_back : ∃ u, appNames.read nestedText = .ok u ∧ u.hasPlainResults = true ∧
    u.numbers = [7, 8] ∧ u.Separated ∧ ∃ s, u.write = .ok s ∧ ∀ resolve order, ∃ v,
      NameContext.read ⟨resolve, ["T"], order⟩ s = .ok v ∧ (v == u) = true := by
  obtain ⟨u, hread, heq⟩ := appNames.exists_read (rfl : nestedText.toList = _)
    (f := fun u => (u.hasPlainResults, u.numbers, decide u.Separated)) (x := (true, [7, 8], true))
    (by decide +kernel)
  simp only [Prod.mk.injEq, decide_eq_true_eq] at heq
  obtain ⟨hplain, hnumbers, hsep⟩ := heq
  obtain ⟨hwrite, hback⟩ := written_type_reads_back appNames_resolvesProperly hread hplain
  have hshort : ∀ n ∈ u.numbers, n.natAbs < 10 ^ Number.digitLimit := by
    rw [hnumbers]
    decide +kernel
  obtain ⟨s, hs⟩ := hwrite.mpr hshort
  refine ⟨u, hread, hplain, hnumbers, hsep, s, hs, fun resolve order => ?_⟩
  obtain ⟨v, hv, hsame⟩ := hback s hs resolve order
  exact ⟨v, hv, hsame hsep⟩

def greatestLabelText : String :=
  "array\x7b" ++ String.ofList (List.replicate Number.digitLimit '9') ++ ": int, int\x7d"

theorem greatestLabel_has_no_text : appNames.ResolvesProperly ∧
    ∃ u, appNames.read greatestLabelText = .ok u ∧ u.hasPlainResults = true ∧
      u.write = .error .tooLongToWrite := by
  refine ⟨appNames_resolvesProperly, ?_⟩
  have htext : greatestLabelText.toList =
      "array\x7b".toList ++ List.replicate Number.digitLimit '9' ++ ": int, int\x7d".toList := by
    simp only [greatestLabelText, String.toList_append, String.toList_ofList]
  obtain ⟨u, hread, heq⟩ := appNames.exists_read htext (f := fun u => (u.hasPlainResults, u.isWritable))
    (x := (true, false)) (by decide +kernel)
  obtain ⟨hplain, hw⟩ := Prod.mk.inj heq
  refine ⟨u, hread, hplain, ?_⟩
  rw [TypeUnion.write, hw]
  rfl

/-! ## Types told apart by their texts -/

def NameContext.literal (templates : List String) : NameContext := { resolve := QualifiedName.ofText, templates }

theorem NameContext.literal_resolvesNames (templates : List String) : (literal templates).ResolvesNames :=
  fun _ hn => QualifiedName.isProper_ofText hn

/-- Two types that were read and have the same text are the same, if no callable in them has a union of
several atoms for its result. -/
theorem plain_types_with_one_text_are_equal {templates : List String} {text₁ text₂ s : String}
    {u₁ u₂ : TypeUnion} (hread₁ : (NameContext.literal templates).read text₁ = .ok u₁)
    (hread₂ : (NameContext.literal templates).read text₂ = .ok u₂) (hplain₁ : u₁.hasPlainResults = true)
    (hplain₂ : u₂.hasPlainResults = true) (hs₁ : u₁.write = .ok s) (hs₂ : u₂.write = .ok s) :
    (u₁ == u₂) = true := by
  -- With sets that list first what came first, the common text is read as either of them.
  have hback : ∀ {text : String} {u : TypeUnion}, (NameContext.literal templates).read text = .ok u →
      u.hasPlainResults = true → u.write = .ok s →
      ∃ v, NameContext.read ⟨QualifiedName.ofText, templates, .firstCome⟩ s = .ok v ∧ v.SameKey u := by
    intro text u hread hplain hs
    have hlegible := NameContext.legible_of_read (NameContext.literal_resolvesNames templates) hread
    rw [TypeUnion.write] at hs
    split at hs
    · next hw =>
      cases hs
      obtain ⟨v, hv, hsame⟩ :=
        @NameContext.read_toText ⟨QualifiedName.ofText, templates, .firstCome⟩ u hlegible hplain hw
      exact ⟨v, hv, hsame fun l _ => SetOrder.firstCome_keeps l⟩
    · cases hs
  obtain ⟨v, hv, hsame₁⟩ := hback hread₁ hplain₁ hs₁
  obtain ⟨w, hw, hsame₂⟩ := hback hread₂ hplain₂ hs₂
  obtain rfl : v = w := Except.ok.inj (hv.symm.trans hw)
  exact decide_eq_true (hsame₁.symm.trans hsame₂)

theorem respelled_text_means_the_same : ∃ u₁ u₂ s,
    (NameContext.literal ["T"]).read "?Foo<T, array-key>|callable(): \\A" = .ok u₁ ∧
    (NameContext.literal ["T"]).read "callable( ):A | \\Foo<T,array-key> | null" = .ok u₂ ∧
    u₁.write = .ok s ∧ u₂.write = .ok s ∧ (u₁ == u₂) = true := by
  obtain ⟨u₁, hread₁, heq₁⟩ := (NameContext.literal ["T"]).exists_read
    (rfl : "?Foo<T, array-key>|callable(): \\A".toList = _) (f := fun u => (u.hasPlainResults, u.write))
    (x := (true, .ok "null|callable(): \\A|\\Foo<T, int|string>")) (by decide +kernel)
  obtain ⟨u₂, hread₂, heq₂⟩ := (NameContext.literal ["T"]).exists_read
    (rfl : "callable( ):A | \\Foo<T,array-key> | null".toList = _) (f := fun u => (u.hasPlainResults, u.write))
    (x := (true, .ok "null|callable(): \\A|\\Foo<T, int|string>")) (by decide +kernel)
  obtain ⟨hplain₁, hs₁⟩ := Prod.mk.inj heq₁
  obtain ⟨hplain₂, hs₂⟩ := Prod.mk.inj heq₂
  exact ⟨u₁, u₂, _, hread₁, hread₂, hs₁, hs₂,
    plain_types_with_one_text_are_equal hread₁ hread₂ hplain₁ hplain₂ hs₁ hs₂⟩

def eitherResult : TypeUnion := ⟨[.callable [] (some ⟨[.named ⟨["A"]⟩ "A", .named ⟨["B"]⟩ "B"]⟩)]⟩

/-- A result of several atoms is written without parentheses, so all but the first of them seem to stand
beside the callable. -/
theorem union_result_looks_like_union : ∃ u₁ u₂ s,
    (NameContext.literal []).read "callable(): (A|B)" = .ok u₁ ∧
    (NameContext.literal []).read "callable(): A|B" = .ok u₂ ∧
    u₁.write = .ok s ∧ u₂.write = .ok s ∧ (u₁ == u₂) = false := by
  obtain ⟨u₁, hread₁, heq₁⟩ := (NameContext.literal []).exists_read (rfl : "callable(): (A|B)".toList = _)
    (f := fun u => (u.write, u == eitherResult)) (x := (.ok "callable(): \\A|\\B", true)) (by decide +kernel)
  obtain ⟨u₂, hread₂, heq₂⟩ := (NameContext.literal []).exists_read (rfl : "callable(): A|B".toList = _)
    (f := fun u => (u.write, u == eitherResult)) (x := (.ok "callable(): \\A|\\B", false)) (by decide +kernel)
  simp only [Prod.mk.injEq] at heq₁ heq₂
  refine ⟨u₁, u₂, _, hread₁, hread₂, heq₁.1, heq₂.1, eq_false_iff.mpr fun hsame => ?_⟩
  have hkeys : u₁.tokens true = u₂.tokens true := of_decide_eq_true hsame
  exact of_decide_eq_false heq₂.2 (hkeys.symm.trans (of_decide_eq_true heq₁.2))

end PhpFlow
