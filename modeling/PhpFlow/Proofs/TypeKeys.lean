import Mathlib.Data.List.Forall2
import Mathlib.Data.List.Sort
import Mathlib.Order.Compare
import PhpFlow.Type.Query

/-!
# Keys of types

Atoms with the same exact key are of the same kind and have parts with the same exact keys. The order of atoms
by their keys is total. So however a set lists its atoms, their union has the first of those that count as the
same, each once and with ascending keys.
-/
namespace PhpFlow

open List

variable {a b : Atom} {x y : List KeyToken}

namespace KeyToken

def rank : KeyToken → Nat
  | stop => 0
  | num _ => 1
  | text _ => 2

def number : KeyToken → Int
  | num n => n
  | _ => 0

def word : KeyToken → String
  | text s => s
  | _ => ""

/-- Tokens are ordered by kind, and within a kind by what they hold. -/
theorem compare_eq_lex :
    compare = compareLex (compareOn rank) (compareLex (compareOn number) (compareOn word)) := by
  funext a b
  cases a <;> cases b <;>
    simp [compare, compareLex, compareOn, rank, number, word, Std.ReflCmp.compare_self] <;> rfl

instance : Std.TransCmp compare := by
  rw [compare_eq_lex]
  infer_instance

instance : Std.LawfulEqCmp compare where
  eq_of_compare {a b} h := by
    cases a <;> cases b <;> simp_all [compare, Std.LawfulEqCmp.compare_eq_iff_eq]

theorem compareList_eq : compareList = List.compareLex compare := by
  funext as bs
  induction as generalizing bs with
  | nil => cases bs <;> rfl
  | cons a as ih =>
    cases bs with
    | nil => rfl
    | cons b bs =>
      rw [compareList, List.compareLex, ih]
      cases compare a b <;> rfl

instance : Std.LawfulEqCmp compareList := by
  rw [compareList_eq]
  infer_instance

instance : Std.TransCmp compareList := by
  rw [compareList_eq]
  infer_instance

end KeyToken

open KeyToken

namespace Atom

/-- The atoms count as the same type. -/
def SameKey (a b : Atom) : Prop := a.tokens true = b.tokens true

end Atom

def TypeUnion.SameKey (u v : TypeUnion) : Prop := u.tokens true = v.tokens true

structure ShapeField.Alike (f g : ShapeField) : Prop where
  key : f.key = g.key
  type : f.type.SameKey g.type
  optional : f.optional = g.optional

inductive Atom.Alike : Atom → Atom → Prop
  | primitive (p : Primitive) : Alike (.primitive p) (.primitive p)
  | list {u v : TypeUnion} (h : u.SameKey v) : Alike (.list u) (.list v)
  | map {k l u v : TypeUnion} (hk : k.SameKey l) (hv : u.SameKey v) : Alike (.map k u) (.map l v)
  | shape {fs gs : List ShapeField} (h : List.Forall₂ ShapeField.Alike fs gs) :
      Alike (.shape fs) (.shape gs)
  | callable {us vs : List TypeUnion} {r q : Option TypeUnion} (hs : List.Forall₂ TypeUnion.SameKey us vs)
      (hr : Option.Rel TypeUnion.SameKey r q) : Alike (.callable us r) (.callable vs q)
  | named {p q : QualifiedName} {s t : String} (h : p.key = q.key) : Alike (.named p s) (.named q t)
  | generic {a b : Atom} {us vs : List TypeUnion} (h : a.SameKey b)
      (hs : List.Forall₂ TypeUnion.SameKey us vs) : Alike (.generic a us) (.generic b vs)
  | classConstant {p q : QualifiedName} {c : String} (h : p.toText = q.toText) :
      Alike (.classConstant p c) (.classConstant q c)
  | reference {k : Reference} {p q : Option QualifiedName}
      (h : p.map QualifiedName.toText = q.map QualifiedName.toText) :
      Alike (.reference k p) (.reference k q)
  | template (n : String) : Alike (.template n) (.template n)

/-- The number that an exact key starts with tells the kind of the atom. -/
def Atom.kind : Atom → Nat
  | .primitive _ => 0
  | .list _ => 1
  | .map _ _ => 2
  | .shape _ => 3
  | .callable _ _ => 4
  | .named _ _ => 5
  | .generic _ _ => 6
  | .classConstant _ _ => 7
  | .reference _ _ => 8
  | .template _ => 9

theorem Atom.tokens_eq_cons (exact : Bool) (a : Atom) : ∃ rest, a.tokens exact = .num a.kind :: rest := by
  cases a <;> exact ⟨_, by rw [Atom.tokens]; rfl⟩

theorem Atom.kind_eq_of_append (h : a.tokens true ++ x = b.tokens true ++ y) : a.kind = b.kind := by
  obtain ⟨r, ha⟩ := a.tokens_eq_cons true
  obtain ⟨r', hb⟩ := b.tokens_eq_cons true
  rw [ha, hb] at h
  exact Int.ofNat.inj (KeyToken.num.inj (List.cons.inj h).1)

theorem Primitive.order_injective {p q : Primitive} (h : p.order = q.order) : p = q := by
  cases p <;> cases q <;> first | rfl | cases h

theorem Reference.word_injective {p q : Reference} (h : p.word = q.word) : p = q := by
  cases p <;> cases q <;> simp_all [Reference.word]

theorem ArrayKey.tokens_append_inj {k l : ArrayKey} (h : k.tokens ++ x = l.tokens ++ y) : k = l ∧ x = y := by
  cases k <;> cases l <;> simp_all [ArrayKey.tokens]

theorem targetTokens_append_inj {p q : Option QualifiedName}
    (h : targetTokens true p ++ x = targetTokens true q ++ y) :
    p.map QualifiedName.toText = q.map QualifiedName.toText ∧ x = y := by
  cases p <;> cases q <;> simp_all [targetTokens]

theorem atomTokens_congr {as bs : List Atom} (h : List.Forall₂ Atom.SameKey as bs) :
    atomTokens true as = atomTokens true bs := by
  induction h with
  | nil => rfl
  | cons h _ ih => rw [atomTokens, atomTokens, h, ih]

theorem unionTokens_congr {us vs : List TypeUnion} (h : List.Forall₂ TypeUnion.SameKey us vs) :
    unionTokens true us = unionTokens true vs := by
  induction h with
  | nil => rfl
  | cons h _ ih => rw [unionTokens, unionTokens, h, ih]

theorem fieldTokens_congr {fs gs : List ShapeField} (h : List.Forall₂ ShapeField.Alike fs gs) :
    fieldTokens true fs = fieldTokens true gs := by
  induction h with
  | nil => rfl
  | @cons f g _ _ h _ ih =>
    obtain ⟨k, t, o⟩ := f
    obtain ⟨l, u, p⟩ := g
    obtain ⟨rfl, ht, rfl⟩ := h
    rw [fieldTokens, fieldTokens, ht, ih]

theorem Atom.Alike.sameKey (h : a.Alike b) : a.SameKey b := by
  unfold Atom.SameKey
  cases h with
  | primitive p => rfl
  | list h => rw [Atom.tokens, Atom.tokens, h]
  | map hk hv => rw [Atom.tokens, Atom.tokens, hk, hv]
  | shape h => rw [Atom.tokens, Atom.tokens, fieldTokens_congr h]
  | @callable us vs r q hs hr =>
    have hresult : resultTokens true r = resultTokens true q := by
      cases hr with
      | none => rfl
      | some h => rw [resultTokens, resultTokens, h]
    rw [Atom.tokens, Atom.tokens, unionTokens_congr hs, hresult]
  | named h => rw [Atom.tokens, Atom.tokens, h]
  | generic h hs => rw [Atom.tokens, Atom.tokens, h, unionTokens_congr hs]
  | classConstant h => simp [Atom.tokens, ownerToken, h]
  | @reference k p q h =>
    cases p <;> cases q <;> simp_all [Atom.tokens, targetTokens]
  | template n => rfl

mutual

/-- Where one exact key ends another that starts at the same place does too, and then the other keys are the
same as well. -/
theorem Atom.alike_of_append (a b : Atom) {x y : List KeyToken}
    (h : a.tokens true ++ x = b.tokens true ++ y) : a.Alike b ∧ a.tokens false = b.tokens false ∧ x = y := by
  have hkind := Atom.kind_eq_of_append h
  cases a <;> cases b <;> try cases hkind
  all_goals
    simp only [Atom.tokens, ownerToken, if_true, cons_append, append_assoc, nil_append,
      List.cons.injEq, KeyToken.num.injEq, KeyToken.text.injEq, Int.natCast_inj, true_and] at h
    simp only [Atom.tokens]
  case primitive.primitive p q =>
    obtain ⟨hp, hrest⟩ := h
    rw [Primitive.order_injective hp]
    exact ⟨.primitive q, rfl, hrest⟩
  case list.list u v =>
    obtain ⟨hu, hu', hrest⟩ := u.sameKey_of_append v h
    exact ⟨.list hu, by rw [hu'], by simpa using hrest⟩
  case map.map k u l v =>
    obtain ⟨hk, hk', hrest⟩ := k.sameKey_of_append l h
    obtain ⟨hu, hu', hrest⟩ := u.sameKey_of_append v hrest
    exact ⟨.map hk hu, by rw [hk', hu'], by simpa using hrest⟩
  case shape.shape fs gs =>
    obtain ⟨hfs, hfs', hrest⟩ := fields_alike_of_append fs gs h
    exact ⟨.shape hfs, by rw [hfs'], hrest⟩
  case callable.callable us r vs q =>
    obtain ⟨hus, hus', hrest⟩ := unions_sameKey_of_append us vs h
    obtain ⟨hr, hr', hrest⟩ := result_sameKey_of_append r q hrest
    exact ⟨.callable hus hr, by rw [hus', hr'], by simpa using hrest⟩
  case named.named p s q t =>
    obtain ⟨hp, hrest⟩ := h
    exact ⟨.named hp, by rw [hp], hrest⟩
  case generic.generic c us d vs =>
    obtain ⟨hc, hc', hrest⟩ := c.alike_of_append d h
    obtain ⟨hus, hus', hrest⟩ := unions_sameKey_of_append us vs hrest
    exact ⟨.generic hc.sameKey hus, by rw [hc', hus'], by simpa using hrest⟩
  case classConstant.classConstant p c q d =>
    obtain ⟨hp, rfl, hrest⟩ := h
    exact ⟨.classConstant hp, by simp [ownerToken, QualifiedName.key, hp], hrest⟩
  case reference.reference k p l q =>
    obtain ⟨hp, hrest⟩ := targetTokens_append_inj h.2
    obtain rfl := Reference.word_injective h.1
    refine ⟨.reference hp, ?_, by simpa using hrest⟩
    cases p <;> cases q <;> simp_all [targetTokens, QualifiedName.key]
  case template.template n m =>
    obtain ⟨rfl, hrest⟩ := h
    exact ⟨.template n, rfl, hrest⟩
termination_by structural a

theorem TypeUnion.sameKey_of_append (u v : TypeUnion) {x y : List KeyToken}
    (h : u.tokens true ++ x = v.tokens true ++ y) :
    u.SameKey v ∧ u.tokens false = v.tokens false ∧ x = y := by
  obtain ⟨as⟩ := u
  obtain ⟨bs⟩ := v
  simp only [TypeUnion.tokens, append_assoc, cons_append, nil_append] at h
  obtain ⟨has, has', hrest⟩ := atoms_sameKey_of_append as bs h
  refine ⟨?_, by rw [TypeUnion.tokens, TypeUnion.tokens, has'], hrest⟩
  rw [TypeUnion.SameKey, TypeUnion.tokens, TypeUnion.tokens, atomTokens_congr has]
termination_by structural u

theorem atoms_sameKey_of_append (as bs : List Atom) {x y : List KeyToken}
    (h : atomTokens true as ++ .stop :: x = atomTokens true bs ++ .stop :: y) :
    List.Forall₂ Atom.SameKey as bs ∧ atomTokens false as = atomTokens false bs ∧ x = y := by
  match as, bs with
  | [], [] => exact ⟨.nil, rfl, by simpa [atomTokens] using h⟩
  | [], b :: bs =>
    obtain ⟨r, hr⟩ := b.tokens_eq_cons true
    simp [atomTokens, hr] at h
  | a :: as, [] =>
    obtain ⟨r, hr⟩ := a.tokens_eq_cons true
    simp [atomTokens, hr] at h
  | a :: as, b :: bs =>
    simp only [atomTokens, append_assoc] at h
    obtain ⟨ha, ha', hrest⟩ := a.alike_of_append b h
    obtain ⟨has, has', hrest⟩ := atoms_sameKey_of_append as bs hrest
    exact ⟨.cons ha.sameKey has, by rw [atomTokens, atomTokens, ha', has'], hrest⟩
termination_by structural as

theorem unions_sameKey_of_append (us vs : List TypeUnion) {x y : List KeyToken}
    (h : unionTokens true us ++ .stop :: x = unionTokens true vs ++ .stop :: y) :
    List.Forall₂ TypeUnion.SameKey us vs ∧ unionTokens false us = unionTokens false vs ∧ x = y := by
  match us, vs with
  | [], [] => exact ⟨.nil, rfl, by simpa [unionTokens] using h⟩
  | [], v :: vs => simp [unionTokens] at h
  | u :: us, [] => simp [unionTokens] at h
  | u :: us, v :: vs =>
    simp only [unionTokens, cons_append, append_assoc, List.cons.injEq, true_and] at h
    obtain ⟨hu, hu', hrest⟩ := u.sameKey_of_append v h
    obtain ⟨hus, hus', hrest⟩ := unions_sameKey_of_append us vs hrest
    exact ⟨.cons hu hus, by rw [unionTokens, unionTokens, hu', hus'], hrest⟩
termination_by structural us

theorem fields_alike_of_append (fs gs : List ShapeField) {x y : List KeyToken}
    (h : fieldTokens true fs ++ .stop :: x = fieldTokens true gs ++ .stop :: y) :
    List.Forall₂ ShapeField.Alike fs gs ∧ fieldTokens false fs = fieldTokens false gs ∧ x = y := by
  match fs, gs with
  | [], [] => exact ⟨.nil, rfl, by simpa [fieldTokens] using h⟩
  | [], ⟨k, _, _⟩ :: gs => cases k <;> simp [fieldTokens, ArrayKey.tokens] at h
  | ⟨k, _, _⟩ :: fs, [] => cases k <;> simp [fieldTokens, ArrayKey.tokens] at h
  | ⟨k, t, o⟩ :: fs, ⟨l, u, p⟩ :: gs =>
    simp only [fieldTokens, cons_append, append_assoc] at h
    obtain ⟨rfl, hrest⟩ := ArrayKey.tokens_append_inj h
    rw [List.cons.injEq, KeyToken.num.injEq] at hrest
    obtain rfl : o = p := by
      cases o <;> cases p <;> simp_all
    obtain ⟨ht, ht', hrest⟩ := t.sameKey_of_append u hrest.2
    rw [List.cons.injEq] at hrest
    obtain ⟨hfs, hfs', hrest⟩ := fields_alike_of_append fs gs hrest.2
    exact ⟨.cons ⟨rfl, ht, rfl⟩ hfs, by rw [fieldTokens, fieldTokens, ht', hfs'], hrest⟩
termination_by structural fs

theorem result_sameKey_of_append (r q : Option TypeUnion) {x y : List KeyToken}
    (h : resultTokens true r ++ .stop :: x = resultTokens true q ++ .stop :: y) :
    Option.Rel TypeUnion.SameKey r q ∧ resultTokens false r = resultTokens false q ∧ x = y := by
  match r, q with
  | none, none => exact ⟨.none, rfl, by simpa [resultTokens] using h⟩
  | none, some _ => simp [resultTokens] at h
  | some _, none => simp [resultTokens] at h
  | some u, some v =>
    simp only [resultTokens, cons_append, List.cons.injEq, true_and] at h
    obtain ⟨hu, hu', hrest⟩ := u.sameKey_of_append v h
    exact ⟨.some hu, by rw [resultTokens, resultTokens, hu'], (List.cons.inj hrest).2⟩
termination_by structural r

end

theorem Atom.SameKey.alike (h : a.SameKey b) : a.Alike b :=
  (a.alike_of_append b (congrArg (· ++ []) h)).1

theorem TypeUnion.SameKey.atoms {u v : TypeUnion} (h : u.SameKey v) :
    List.Forall₂ Atom.SameKey u.atoms v.atoms := by
  obtain ⟨as⟩ := u
  obtain ⟨bs⟩ := v
  exact (atoms_sameKey_of_append as bs h).1

section Order

namespace Atom

variable {a b : Atom} {bs : List Atom}

theorem beq_iff_sameKey : (a == b) = true ↔ a.SameKey b := decide_eq_true_iff

theorem transCmp_tokens :
    Std.TransCmp fun a b : Atom => compareList (a.tokens false) (b.tokens false) where
  eq_swap := Std.OrientedCmp.eq_swap
  isLE_trans := Std.TransCmp.isLE_trans

instance : Std.TransCmp Atom.compare := transCmp_tokens

theorem compare_eq_iff : a.compare b = .eq ↔ a.tokens false = b.tokens false := by
  rw [Atom.compare]
  exact Std.LawfulEqCmp.compare_eq_iff_eq

theorem SameKey.compare_eq (h : a.SameKey b) : a.compare b = .eq :=
  compare_eq_iff.mpr (a.alike_of_append b (congrArg (· ++ []) h)).2.1

def Apart (as : List Atom) : Prop := as.Pairwise fun a b => ¬ a.SameKey b

theorem Apart.eq {as : List Atom} (h : Apart as) (ha : a ∈ as) (hb : b ∈ as) (hab : a.SameKey b) : a = b :=
  inj_on_of_nodup_map (pairwise_map.mpr h) ha hb hab

/-- No atom comes after one that follows it, and none counts as the same. -/
def Ascending (as : List Atom) : Prop := as.Pairwise fun a b => (a.compare b).isLE ∧ ¬ a.SameKey b

abbrev Le (a b : Atom) : Prop := (a.compare b).isLE = true

instance : Std.Total Le where
  total a b := by
    have hswap : b.compare a = (a.compare b).swap := Std.OrientedCmp.eq_swap
    rw [Le, Le, hswap]
    cases a.compare b <;> decide

instance : IsTrans Atom Le := ⟨fun _ _ _ => Std.TransCmp.isLE_trans⟩

theorem foldr_place (as : List Atom) : as.foldr place [] = as.insertionSort Le := by
  have hplace (a : Atom) (bs : List Atom) : a.place bs = bs.orderedInsert Le a := by
    induction bs with
    | nil => rfl
    | cons b bs ih => rw [place, orderedInsert_cons, ih]
  simp only [funext₂ hplace, insertionSort]

theorem distinct_sublist (as : List Atom) : distinct as <+ as := by
  induction as with
  | nil => exact .slnil
  | cons a as ih => exact (filter_sublist.trans ih).cons_cons a

theorem apart_distinct (as : List Atom) : Apart (distinct as) := by
  induction as with
  | nil => exact .nil
  | cons a as ih =>
    refine pairwise_cons.mpr ⟨fun b hb => ?_, ih.sublist filter_sublist⟩
    rw [← beq_iff_sameKey]
    simpa using (mem_filter.mp hb).2

/-- What counts as the same as an atom is found where it comes first. -/
theorem find?_distinct (a : Atom) (as : List Atom) : (distinct as).find? (a == ·) = as.find? (a == ·) := by
  induction as with
  | nil => rfl
  | cons b as ih =>
    rw [distinct, find?_cons, find?_cons]
    cases hab : a == b with
    | true => rfl
    | false =>
      -- Nothing that counts as the same as `b` counts as the same as `a`.
      rw [← ih, find?_filter]
      refine congrArg (find? · (distinct as)) (funext fun c => ?_)
      cases hac : a == c with
      | false => simp
      | true =>
        have hbc : ¬ (b == c) = true := by
          rw [← Bool.not_eq_true] at hab
          rw [beq_iff_sameKey] at hab hac ⊢
          exact fun hbc => hab (hac.trans hbc.symm)
        simp [hbc]

end Atom

open Atom (Ascending SameKey)

variable {σ : SetOrder} {as : List Atom} {a : Atom}

namespace SetOrder

theorem atoms_perm (σ : SetOrder) (as : List Atom) : (σ.ofList as).atoms.Perm (Atom.distinct as) := by
  rw [ofList, Atom.foldr_place]
  exact (perm_insertionSort _ _).trans (σ.perm _)

theorem ascending_ofList (σ : SetOrder) (as : List Atom) : Ascending (σ.ofList as).atoms := by
  refine .and ?_ ?_
  · rw [ofList, Atom.foldr_place]
    exact pairwise_insertionSort _ _
  · refine ((σ.atoms_perm as).pairwise_iff ?_).mpr (Atom.apart_distinct as)
    exact fun hab hba => hab hba.symm

theorem mem_ofList (h : a ∈ (σ.ofList as).atoms) : a ∈ as :=
  (Atom.distinct_sublist as).subset ((σ.atoms_perm as).mem_iff.mp h)

theorem exists_mem_ofList (h : a ∈ as) : ∃ b ∈ (σ.ofList as).atoms, a.SameKey b := by
  cases hfind : as.find? (a == ·) with
  | none => exact absurd (Atom.beq_iff_sameKey.mpr rfl) (find?_eq_none.mp hfind a h)
  | some b =>
    rw [← Atom.find?_distinct] at hfind
    exact ⟨b, (σ.atoms_perm as).mem_iff.mpr (mem_of_find?_eq_some hfind),
      Atom.beq_iff_sameKey.mp (find?_some hfind)⟩

end SetOrder

namespace TypeUnion

theorem mem_ofList (h : a ∈ (ofList as).atoms) : a ∈ as := SetOrder.mem_ofList h

theorem exists_mem_ofList (h : a ∈ as) : ∃ b ∈ (ofList as).atoms, a.SameKey b := SetOrder.exists_mem_ofList h

theorem ascending_ofList (as : List Atom) : Ascending (ofList as).atoms := SetOrder.ascending_ofList _ as

end TypeUnion

end Order

end PhpFlow
