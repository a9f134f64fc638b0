import PhpFlow.Proofs.Lexemes
import PhpFlow.Proofs.TypeKeys
import PhpFlow.Type.Printer

/-!
# Types that come from texts

A text that is read gives a type of a certain form: its unions are in order and not empty, the names in
it are made of words, and the parameters it gives to a name are not the elements of a list. We call such
types legible. They are the types whose text says all there is to them.
-/
namespace PhpFlow

open List Option

open Reader

/-- A name with so many parameters is a kind of array or a class string, and not a class. -/
def takesElements (text : String) (count : Nat) : Bool :=
  listWords.contains (Text.lower text) && (count = 1 || count = 2) ||
    Text.lower text = "class-string" && count = 1

def MeansTemplate (templates : List String) (n : String) : Prop :=
  isWord n.toList = true ∧
    ∀ resolve order, NameContext.ownWord? ⟨resolve, templates, order⟩ n = some (.template n, [])

def ArrayKey.IsLabel : ArrayKey → Prop
  | .int _ => True
  | .text s => isWord s.toList = true

def Atom.isPlain : Atom → Bool
  | .primitive _ | .named _ _ | .reference _ none | .template _ => true
  | _ => false

mutual

def Atom.Legible (templates : List String) : Atom → Prop
  | .primitive p => p ≠ .unknown
  | .list v => v.Legible templates
  | .map k v => k.Legible templates ∧ v.Legible templates
  | .shape fs => fieldsLegible templates fs
  | .callable as r => unionsLegible templates as ∧ resultLegible templates r
  | .named q _ => q.IsProper
  | .generic b as =>
    b.isPlain = true ∧ b.Legible templates ∧ as ≠ [] ∧ takesElements b.toText as.length = false ∧
      unionsLegible templates as
  | .classConstant q c => q.IsProper ∧ isWord c.toList = true
  | .reference _ none => True
  | .reference k (some q) => k = .classString ∧ q.IsProper
  | .template n => MeansTemplate templates n

def TypeUnion.Legible (templates : List String) : TypeUnion → Prop
  | ⟨as⟩ => as ≠ [] ∧ Atom.Ascending as ∧ atomsLegible templates as

def atomsLegible (templates : List String) : List Atom → Prop
  | [] => True
  | a :: as => a.Legible templates ∧ atomsLegible templates as

def unionsLegible (templates : List String) : List TypeUnion → Prop
  | [] => True
  | u :: us => u.Legible templates ∧ unionsLegible templates us

def fieldsLegible (templates : List String) : List ShapeField → Prop
  | [] => True
  | ⟨k, t, _⟩ :: fs => k.IsLabel ∧ t.Legible templates ∧ fieldsLegible templates fs

def resultLegible (templates : List String) : Option TypeUnion → Prop
  | none => True
  | some u => u.Legible templates

end

variable {templates : List String} {a b : Atom} {as : List Atom} {u v : TypeUnion} {σ : SetOrder}
variable {cs : List Char} {text : String}

theorem atomsLegible_iff : atomsLegible templates as ↔ ∀ a ∈ as, a.Legible templates := by
  induction as with
  | nil => simp [atomsLegible]
  | cons a as ih => simp [atomsLegible, ih]

theorem unionsLegible_iff {us : List TypeUnion} :
    unionsLegible templates us ↔ ∀ u ∈ us, u.Legible templates := by
  induction us with
  | nil => simp [unionsLegible]
  | cons u us ih => simp [unionsLegible, ih]

namespace TypeUnion

theorem Legible.atoms (h : u.Legible templates) : ∀ a ∈ u.atoms, a.Legible templates := by
  obtain ⟨as⟩ := u
  exact atomsLegible_iff.mp h.2.2

theorem Legible.ne_nil (h : u.Legible templates) : u.atoms ≠ [] := by
  obtain ⟨as⟩ := u
  exact h.1

theorem legible_ofList (hne : as ≠ []) (h : ∀ a ∈ as, a.Legible templates) :
    (σ.ofList as).Legible templates := by
  refine ⟨?_, σ.ascending_ofList as, atomsLegible_iff.mpr fun a ha => h a (SetOrder.mem_ofList ha)⟩
  obtain ⟨a, ha⟩ := exists_mem_of_ne_nil as hne
  obtain ⟨b, hb, -⟩ := SetOrder.exists_mem_ofList ha
  exact ne_nil_of_mem hb

theorem legible_single (h : a.Legible templates) : (single a).Legible templates :=
  ⟨by simp, pairwise_singleton _ _, h, trivial⟩

theorem legible_union (hu : u.Legible templates) (hv : v.Legible templates) :
    (σ.union u v).Legible templates := by
  apply legible_ofList
  · simp [hu.ne_nil]
  · intro a ha
    rcases mem_append.mp ha with ha | ha
    · exact hu.atoms a ha
    · exact hv.atoms a ha

theorem legible_flatten {us : List TypeUnion} (hne : us ≠ []) (h : ∀ u ∈ us, u.Legible templates) :
    (σ.flatten us).Legible templates := by
  apply legible_ofList
  · obtain ⟨u, hu⟩ := exists_mem_of_ne_nil us hne
    obtain ⟨a, ha⟩ := exists_mem_of_ne_nil u.atoms (h u hu).ne_nil
    exact ne_nil_of_mem (mem_flatMap_of_mem hu ha)
  · intro a ha
    obtain ⟨u, hu, ha⟩ := mem_flatMap.mp ha
    exact (h u hu).atoms a ha

theorem legible_nest {n : Nat} (h : u.Legible templates) : (nest n u).Legible templates := by
  induction n generalizing u with
  | zero => exact h
  | succ n ih => exact ih (legible_single h)

end TypeUnion

/-! ## What names mean -/

/-- The characters around the letters of ASCII, and its small letters, have no case to lose. -/
def isSmall (c : Char) : Bool := c.toNat < 65 || 90 < c.toNat && c.toNat < 192

theorem lowerChar_of_isSmall {c : Char} (h : isSmall c = true) : Text.lowerChar c = c := by
  have htable : Text.capitals.all (fun r => 65 ≤ r.first && (r.last ≤ 90 || 192 ≤ r.first)) = true := by decide
  have hnone : Text.capitals.find? (fun r => r.covers c.toNat) = none := by
    rw [find?_eq_none]
    intro r hr hcovers
    have hbounds := all_eq_true.mp htable r hr
    simp only [isSmall, Text.Capitals.covers, Bool.or_eq_true, Bool.and_eq_true, decide_eq_true_eq]
      at h hbounds hcovers
    omega
  rw [Text.lowerChar, hnone]

theorem lowerFrom_of_isSmall {before : List Char} (h : cs.all isSmall = true) :
    Text.lowerFrom before cs = cs := by
  induction cs generalizing before with
  | nil => rfl
  | cons c cs ih =>
    rw [all_cons, Bool.and_eq_true] at h
    have hsigma : c ≠ 'Σ' := by
      rintro rfl
      exact absurd h.1 (by decide)
    have hdotted : c ≠ 'İ' := by
      rintro rfl
      exact absurd h.1 (by decide)
    rw [Text.lowerFrom, if_neg hsigma, if_neg hdotted, lowerChar_of_isSmall h.1, ih h.2]

theorem lower_of_isSmall {s : String} (h : s.toList.all isSmall = true) : Text.lower s = s := by
  rw [Text.lower, lowerFrom_of_isSmall h, String.ofList_toList]

theorem lower_ne_of_slash {w : String} (h : text.toList = '\\' :: cs) (hw : w.toList.head? ≠ some '\\') :
    Text.lower text ≠ w := by
  have hslash : Text.lowerChar '\\' = '\\' := lowerChar_of_isSmall (by decide)
  rintro rfl
  apply hw
  rw [Text.lower, String.toList_ofList, h, Text.lowerFrom, if_neg (by decide), if_neg (by decide), hslash]
  rfl

theorem takesElements_of_slash (h : text.toList = '\\' :: cs) (n : Nat) : takesElements text n = false := by
  have hlist : listWords.contains (Text.lower text) = false := by
    rw [contains_eq_mem, decide_eq_false_iff_not]
    intro hmem
    exact lower_ne_of_slash h ((by decide : ∀ w ∈ listWords, w.toList.head? ≠ some '\\') _ hmem) rfl
  have hclass : Text.lower text ≠ "class-string" := lower_ne_of_slash h (by decide)
  simp only [takesElements, hlist, hclass, decide_false, Bool.false_and, Bool.or_false]

theorem Primitive.lower_word (p : Primitive) : Text.lower p.word = p.word := by
  cases p <;> exact lower_of_isSmall (by decide)

theorem Reference.lower_word (k : Reference) : Text.lower k.word = k.word := by
  cases k <;> exact lower_of_isSmall (by decide)

/-- The one primitive whose word takes elements is that of arrays. -/
theorem Primitive.eq_array_of_takesElements {p : Primitive} {n : Nat}
    (h : takesElements p.word n = true) : p = .array ∧ (n = 1 ∨ n = 2) := by
  have hlist : listWords.contains p.word = decide (p = .array) := by cases p <;> decide
  have hclass : p.word ≠ "class-string" := by cases p <;> decide
  rw [takesElements, p.lower_word, hlist] at h
  simpa [hclass] using h

theorem Reference.eq_classString_of_takesElements {k : Reference} {n : Nat}
    (h : takesElements k.word n = true) : k = .classString ∧ n = 1 := by
  have hlist : listWords.contains k.word = false := by cases k <;> decide
  have hclass : k.word = "class-string" ↔ k = .classString := by cases k <;> decide
  rw [takesElements, k.lower_word, hlist] at h
  simpa [hclass] using h

namespace NameContext

variable {ctx : NameContext} {text : String}

/-- Every name is resolved to one that is made of words. -/
def ResolvesProperly (ctx : NameContext) : Prop := ∀ n, (ctx.resolve n).IsProper

/-- What the grammar takes for a name is resolved to one that is made of words. -/
def ResolvesNames (ctx : NameContext) : Prop := ∀ n : String, IsName n.toList → (ctx.resolve n).IsProper

theorem ResolvesProperly.resolvesNames (h : ctx.ResolvesProperly) : ctx.ResolvesNames := fun n _ => h n

theorem ownWord?_cases (h : ctx.ownWord? text = some (a, as)) :
    (∃ p ps, builtinWords.lookup (Text.lower text) = some (p :: ps) ∧ a = .primitive p ∧
      as = ps.map .primitive) ∨
    (a = .reference .self none ∧ as = []) ∨ (a = .reference .static none ∧ as = []) ∨
    (Text.lower text = "class-string" ∧ a = .reference .classString none ∧ as = []) ∨
    (isQualified text = false ∧ a = .template text ∧ as = []) := by
  rw [ownWord?] at h
  split at h
  · cases h
  · next hq =>
    dsimp only at h
    split at h
    · next p ps hlookup =>
      cases h
      exact .inl ⟨p, ps, hlookup, rfl, rfl⟩
    · split at h
      · cases h
        exact .inr (.inl ⟨rfl, rfl⟩)
      · split at h
        · cases h
          exact .inr (.inr (.inl ⟨rfl, rfl⟩))
        · split at h
          · next hw =>
            cases h
            exact .inr (.inr (.inr (.inl ⟨hw, rfl, rfl⟩)))
          · split at h
            · cases h
              exact .inr (.inr (.inr (.inr ⟨by simpa using hq, rfl, rfl⟩)))
            · cases h

/-- What a name stands for can be written as a single name, and does not take elements where the name
itself does not. -/
structure Denotes (templates : List String) (text : String) (a : Atom) : Prop where
  plain : a.isPlain = true
  legible : a.Legible templates
  elements : ∀ n, takesElements a.toText n = true → takesElements text n = true

theorem denotes_of_ownWord (hn : IsName text.toList) (h : ctx.ownWord? text = some (a, as)) :
    Denotes ctx.templates text a ∧ ∀ b ∈ as, b.Legible ctx.templates := by
  rcases ownWord?_cases h with ⟨p, ps, hlookup, rfl, rfl⟩ | ⟨rfl, rfl⟩ | ⟨rfl, rfl⟩ | ⟨hw, rfl, rfl⟩ |
    ⟨hq, rfl, rfl⟩
  · obtain ⟨before, after, hwords, -⟩ := lookup_eq_some_iff.mp hlookup
    have hmem : (Text.lower text, p :: ps) ∈ builtinWords := by
      rw [hwords]
      simp
    have hknown : ∀ e ∈ builtinWords, ∀ p ∈ e.2, p ≠ Primitive.unknown := by decide
    have harray : ∀ e ∈ builtinWords, e.2.head? = some .array → listWords.contains e.1 = true := by
      decide
    refine ⟨⟨rfl, ?_, ?_⟩, ?_⟩
    · exact hknown _ hmem p (by simp)
    · intro n hel
      obtain ⟨rfl, hcount⟩ := Primitive.eq_array_of_takesElements hel
      rw [takesElements, harray _ hmem rfl]
      simpa using .inl hcount
    · intro b hb
      obtain ⟨r, hr, rfl⟩ := mem_map.mp hb
      exact hknown _ hmem r (by simp [hr])
  · refine ⟨⟨rfl, trivial, ?_⟩, by simp⟩
    intro n hel
    exact absurd (Reference.eq_classString_of_takesElements (k := .self) hel).1 (by decide)
  · refine ⟨⟨rfl, trivial, ?_⟩, by simp⟩
    intro n hel
    exact absurd (Reference.eq_classString_of_takesElements (k := .static) hel).1 (by decide)
  · refine ⟨⟨rfl, trivial, ?_⟩, by simp⟩
    intro n hel
    obtain ⟨-, rfl⟩ := Reference.eq_classString_of_takesElements (k := .classString) hel
    simp [takesElements, hw]
  · have hword : isWord text.toList = true := hn.isWord (by simpa [isQualified] using hq)
    exact ⟨⟨rfl, ⟨hword, fun _ _ => h⟩, fun _ hel => hel⟩, by simp⟩

/-- A name with parameters that are not elements is a class with parameters, unless it stands for
several atoms. -/
theorem genericAtom_of_takesElements {args : List TypeUnion} (h : takesElements text args.length = false) :
    ctx.genericAtom text args =
      match ctx.atomsOf text with
      | (a, []) => .generic a args
      | (a, _) => a := by
  match args with
  | [] => rfl
  | [v] =>
    obtain ⟨hlist, hclass⟩ : Text.lower text ∉ listWords ∧ Text.lower text ≠ "class-string" := by
      simpa [takesElements] using h
    exact (if_neg (by simpa using hlist)).trans (if_neg hclass)
  | [k, v] =>
    have hlist : Text.lower text ∉ listWords := by simpa [takesElements] using h
    exact if_neg (by simpa using hlist)
  | _ :: _ :: _ :: _ => rfl

variable (hctx : ctx.ResolvesNames) (hn : IsName text.toList)

include hctx hn

theorem isProper_resolveName : (ctx.resolveName text).IsProper := by
  rw [resolveName]
  split
  · exact QualifiedName.isProper_ofText hn
  · exact hctx text hn

theorem isProper_ownerOf : (ctx.ownerOf text).IsProper := by
  rw [ownerOf]
  split
  · exact QualifiedName.isProper_ofText hn
  · exact isProper_resolveName hctx hn

theorem denotes_atomsOf : Denotes ctx.templates text (ctx.atomsOf text).1 ∧
      ∀ b ∈ (ctx.atomsOf text).2, b.Legible ctx.templates := by
  rw [atomsOf]
  split
  · next r h =>
    exact denotes_of_ownWord hn h
  · have hq := isProper_resolveName hctx hn
    refine ⟨⟨rfl, hq, ?_⟩, by simp⟩
    intro n hel
    obtain ⟨cs, hcs⟩ := hq.exists_cons
    rw [Atom.toText, takesElements_of_slash hcs] at hel
    cases hel

theorem legible_genericAtom {args : List TypeUnion} (hne : args ≠ []) (h : ∀ u ∈ args, u.Legible ctx.templates) :
    (ctx.genericAtom text args).Legible ctx.templates := by
  cases hel : takesElements text args.length with
  | false =>
    obtain ⟨hden, -⟩ := denotes_atomsOf hctx hn
    rw [genericAtom_of_takesElements hel]
    split
    · next a heq =>
      rw [heq] at hden
      refine ⟨hden.plain, hden.legible, hne, ?_, unionsLegible_iff.mpr h⟩
      rw [Bool.eq_false_iff]
      intro hbase
      rw [hden.elements _ hbase] at hel
      cases hel
    · next a _ _ heq =>
      rw [heq] at hden
      exact hden.legible
  | true =>
    match args, hel with
    | [v], _ =>
      have hv := h v (by simp)
      simp only [genericAtom]
      split
      · exact hv
      · split
        · split
          · next q spelling hatoms => exact ⟨rfl, hv.atoms (.named q spelling) (by simp [hatoms])⟩
          · exact trivial
        · next hlist hclass => simp_all [takesElements]
    | [k, v], _ =>
      simp only [genericAtom]
      split
      · exact ⟨h k (by simp), h v (by simp)⟩
      · next hlist => simp_all [takesElements]
    | _ :: _ :: _ :: _, hel => simp [takesElements] at hel

end NameContext

/-! ## What expressions mean -/

variable {ctx : NameContext}

def TypeExpr.Legible (ctx : NameContext) (t : TypeExpr) : Prop :=
  ∀ u, t.union? ctx = some u → u.Legible ctx.templates

def TypeAlternative.Legible (ctx : NameContext) (a : TypeAlternative) : Prop :=
  ∀ u, a.union? ctx = some u → u.Legible ctx.templates

def TypeHead.Legible (ctx : NameContext) (h : TypeHead) : Prop :=
  ∀ u, h.union? ctx = some u → u.Legible ctx.templates

def EntryLabel.IsLabel : EntryLabel → Prop
  | .number _ _ => True
  | .word s => isWord s.toList = true

structure TypeEntry.Legible (ctx : NameContext) (e : TypeEntry) : Prop where
  label : ∀ l ∈ e.label, l.IsLabel
  type : e.type.Legible ctx

theorem mapM_eq_some_iff {α β : Type} {f : α → Option β} {xs : List α} {ys : List β} :
    xs.mapM f = some ys ↔ List.Forall₂ (fun x y => f x = some y) xs ys := by
  induction xs generalizing ys with
  | nil => simp [eq_comm]
  | cons x xs ih =>
    rw [mapM_cons, List.forall₂_cons_left_iff]
    simp only [Option.bind_eq_bind, Option.bind_eq_some_iff, Option.pure_def, Option.some.injEq, ih]
    constructor
    · rintro ⟨y, hy, zs, hzs, rfl⟩
      exact ⟨y, zs, hy, hzs, rfl⟩
    · rintro ⟨y, zs, hy, hzs, rfl⟩
      exact ⟨y, hy, zs, hzs, rfl⟩

theorem alternativeUnions?_eq_mapM (as : List TypeAlternative) :
    alternativeUnions? ctx as = as.mapM (·.union? ctx) := by
  induction as with
  | nil => rfl
  | cons a as ih => rw [alternativeUnions?, ih, mapM_cons]

theorem unions?_eq_mapM (ts : List TypeExpr) : unions? ctx ts = ts.mapM (·.union? ctx) := by
  induction ts with
  | nil => rfl
  | cons t ts ih => rw [unions?, ih, mapM_cons]

/-- The types of a list of expressions are legible if each expression is, and there are as many. -/
theorem legible_of_mapM {α : Type} {f : α → Option TypeUnion} {xs : List α} {us : List TypeUnion}
    (h : ∀ x ∈ xs, ∀ u, f x = some u → u.Legible ctx.templates) (hus : xs.mapM f = some us) :
    us.length = xs.length ∧ ∀ u ∈ us, u.Legible ctx.templates := by
  have hall := mapM_eq_some_iff.mp hus
  refine ⟨hall.length_eq.symm, ?_⟩
  intro u hu
  obtain ⟨i, hi, rfl⟩ := mem_iff_getElem.mp hu
  have hx : i < xs.length := by rw [hall.length_eq]; exact hi
  exact h xs[i] (getElem_mem hx) us[i] (List.forall₂_iff_get.mp hall |>.2 i hx hi)

theorem EntryLabel.IsLabel.key {l : EntryLabel} {k : ArrayKey} (hl : l.IsLabel) (h : l.key? = some k) :
    k.IsLabel := by
  cases l with
  | word s =>
    cases h
    exact hl
  | number negative ds =>
    rw [key?] at h
    split at h
    · cases h
    · cases h
      exact trivial

theorem ArrayKey.isLabel_orNext (next : Int) {written : Option ArrayKey}
    (h : ∀ k ∈ written, k.IsLabel) : (orNext next written).1.IsLabel := by
  match written with
  | none => exact trivial
  | some (.int n) => exact trivial
  | some (.text s) => exact h (.text s) rfl

def writtenKey? : Option EntryLabel → Option (Option ArrayKey)
  | none => some none
  | some l => l.key?.map some

theorem entryFields?_cons (next : Int) (l : Option EntryLabel) (o : Bool) (t : TypeExpr)
    (es : List TypeEntry) :
    entryFields? ctx next (⟨l, o, t⟩ :: es) =
      (writtenKey? l).bind fun written =>
        (t.union? ctx).bind fun u =>
          (entryFields? ctx (ArrayKey.orNext next written).2 es).map fun fs =>
            ⟨(ArrayKey.orNext next written).1, u, o⟩ :: fs := by
  cases l <;> simp only [entryFields?, writtenKey?, Option.bind_eq_bind, Option.pure_def, Option.map_eq_bind] <;>
    rfl

theorem isLabel_of_writtenKey {l : Option EntryLabel} {written : Option ArrayKey}
    (hl : ∀ l' ∈ l, l'.IsLabel) (h : writtenKey? l = some written) : ∀ k ∈ written, k.IsLabel := by
  intro k hk
  cases l with
  | none =>
    cases h
    cases hk
  | some l =>
    obtain ⟨k', hkey, rfl⟩ := map_eq_some_iff.mp h
    cases hk
    exact (hl l rfl).key hkey

theorem legible_of_entryFields {es : List TypeEntry} {next : Int} {fs : List ShapeField}
    (h : ∀ e ∈ es, e.Legible ctx) (hfs : entryFields? ctx next es = some fs) :
    fieldsLegible ctx.templates fs := by
  induction es generalizing next fs with
  | nil =>
    cases hfs
    exact trivial
  | cons e es ih =>
    obtain ⟨l, o, t⟩ := e
    have he := h ⟨l, o, t⟩ (by simp)
    simp only [entryFields?_cons, Option.bind_eq_some_iff, map_eq_some_iff] at hfs
    obtain ⟨written, hwritten, u, hu, gs, hgs, rfl⟩ := hfs
    exact ⟨ArrayKey.isLabel_orNext next (isLabel_of_writtenKey he.label hwritten), he.type u hu,
      ih (fun e he => h e (by simp [he])) hgs⟩

theorem legible_of_tupleFields {ts : List TypeExpr} {next : Nat} {fs : List ShapeField}
    (h : ∀ t ∈ ts, t.Legible ctx) (hfs : tupleFields? ctx next ts = some fs) :
    fieldsLegible ctx.templates fs := by
  induction ts generalizing next fs with
  | nil =>
    cases hfs
    exact trivial
  | cons t ts ih =>
    simp only [tupleFields?, Option.bind_eq_bind, Option.bind_eq_some_iff] at hfs
    obtain ⟨u, hu, gs, hgs, heq⟩ := hfs
    cases heq
    exact ⟨trivial, h t (by simp) u hu, ih (fun t ht => h t (by simp [ht])) hgs⟩

/-- An expression is legible if its alternatives are and there is one. -/
theorem TypeExpr.legible_mk {as : List TypeAlternative} (hne : as ≠ [])
    (h : ∀ a ∈ as, a.Legible ctx) : (TypeExpr.mk as).Legible ctx := by
  intro u hu
  rw [TypeExpr.union?, alternativeUnions?_eq_mapM] at hu
  obtain ⟨us, hus, rfl⟩ := map_eq_some_iff.mp hu
  obtain ⟨hlen, hall⟩ := legible_of_mapM h hus
  apply TypeUnion.legible_flatten _ hall
  rintro rfl
  exact hne (length_eq_zero_iff.mp hlen.symm)

theorem TypeAlternative.legible_mk {nullable : Bool} {h : TypeHead} {k : Nat} (hh : h.Legible ctx) :
    (TypeAlternative.mk nullable h k).Legible ctx := by
  intro u hu
  obtain ⟨v, hv, rfl⟩ := map_eq_some_iff.mp hu
  have hnest : (TypeUnion.nest k v).Legible ctx.templates := TypeUnion.legible_nest (hh v hv)
  cases nullable with
  | false => exact hnest
  | true => exact TypeUnion.legible_union hnest (TypeUnion.legible_single (by simp [Atom.Legible]))

namespace TypeHead

variable {ts : List TypeExpr} {n : String}

theorem legible_shape {es : List TypeEntry} (h : ∀ e ∈ es, e.Legible ctx) : (shape es).Legible ctx := by
  intro u hu
  obtain ⟨fs, hfs, rfl⟩ := map_eq_some_iff.mp hu
  exact TypeUnion.legible_single (legible_of_entryFields h hfs)

theorem legible_callable {r : Option TypeExpr} (h : ∀ t ∈ ts, t.Legible ctx)
    (hr : ∀ t ∈ r, t.Legible ctx) : (callable ts r).Legible ctx := by
  intro u hu
  simp only [union?, Option.bind_eq_bind, Option.bind_eq_some_iff, unions?_eq_mapM] at hu
  obtain ⟨us, hus, v, hv, heq⟩ := hu
  cases heq
  refine TypeUnion.legible_single ⟨unionsLegible_iff.mpr (legible_of_mapM h hus).2, ?_⟩
  cases r with
  | none =>
    cases hv
    exact trivial
  | some t =>
    obtain ⟨w, hw, rfl⟩ := map_eq_some_iff.mp hv
    exact hr t rfl w hw

theorem legible_tuple (h : ∀ t ∈ ts, t.Legible ctx) : (tuple ts).Legible ctx := by
  intro u hu
  obtain ⟨fs, hfs, rfl⟩ := map_eq_some_iff.mp hu
  exact TypeUnion.legible_single (legible_of_tupleFields h hfs)

variable (hctx : ctx.ResolvesNames) (hn : IsName n.toList)

include hctx hn

theorem legible_constant {c : String} (hc : isWord c.toList = true) : (constant n c).Legible ctx := by
  intro u hu
  cases hu
  exact TypeUnion.legible_single ⟨NameContext.isProper_ownerOf hctx hn, hc⟩

theorem legible_generic (hne : ts ≠ [])
    (h : ∀ t ∈ ts, t.Legible ctx) : (generic n ts).Legible ctx := by
  intro u hu
  rw [union?, unions?_eq_mapM] at hu
  obtain ⟨us, hus, rfl⟩ := map_eq_some_iff.mp hu
  obtain ⟨hlen, hall⟩ := legible_of_mapM h hus
  have husne : us ≠ [] := by
    rintro rfl
    exact hne (length_eq_zero_iff.mp hlen.symm)
  exact TypeUnion.legible_single (NameContext.legible_genericAtom hctx hn husne hall)

theorem legible_genericAny : (genericAny n).Legible ctx := by
  intro u hu
  cases hu
  apply TypeUnion.legible_single
  apply NameContext.legible_genericAtom hctx hn (by simp)
  rintro v (_ | ⟨_, hv⟩)
  · exact TypeUnion.legible_single (by simp [Atom.Legible])
  · cases hv

theorem legible_name : (name n).Legible ctx := by
  intro u hu
  obtain ⟨hden, hall⟩ := NameContext.denotes_atomsOf hctx hn
  cases hu
  apply TypeUnion.legible_ofList (by simp)
  rintro a (_ | ⟨_, ha⟩)
  · exact hden.legible
  · exact hall a ha

end TypeHead

/-! ## What is read -/

namespace Reader

def Yields {α : Type} (r : Reader α) (P : α → Prop) : Prop := ∀ cs a rest, r cs = some (a, rest) → P a

variable {α : Type} {P : α → Prop} {part : Reader α}

theorem Yields.map {β : Type} {Q : β → Prop} {f : α × List Char → β × List Char} (h : part.Yields P)
    (hf : ∀ a rest, P a → Q (f (a, rest)).1) {cs : List Char} {b : β} {rest : List Char}
    (hb : (part cs).map f = some (b, rest)) : Q b := by
  obtain ⟨⟨a, rest'⟩, ha, hfa⟩ := map_eq_some_iff.mp hb
  have := hf a rest' (h cs a rest' ha)
  rwa [hfa] at this

theorem Yields.more (h : part.Yields P) (sep : Char) (n : Nat) (cs : List Char) :
    ∀ a ∈ (more sep part n cs).1, P a := by
  induction n generalizing cs with
  | zero => simp [Reader.more]
  | succ n ih =>
    rw [Reader.more]
    split
    · simp
    · split
      · simp
      · next a rest hpart =>
        rintro b (_ | ⟨_, hb⟩)
        · exact h _ _ _ hpart
        · exact ih rest b hb

theorem Yields.separated (h : part.Yields P) (sep : Char) :
    (separated sep part).Yields fun as => as ≠ [] ∧ ∀ a ∈ as, P a := by
  intro cs as rest has
  rw [Reader.separated] at has
  split at has
  · cases has
  · next a rest' hpart =>
    cases has
    refine ⟨by simp, ?_⟩
    rintro b (_ | ⟨_, hb⟩)
    · exact h _ _ _ hpart
    · exact h.more sep _ _ b hb

theorem Yields.getD_separated (h : part.Yields P) (sep : Char) (cs other : List Char) :
    ∀ a ∈ ((Reader.separated sep part cs).getD ([], other)).1, P a := by
  cases hr : Reader.separated sep part cs with
  | none => simp
  | some r => exact (h.separated sep cs r.1 r.2 hr).2

theorem Yields.closing {close : Char} {a b : α} {cs rest : List Char} (h : P a)
    (hb : Reader.closing close a cs = some (b, rest)) : P b := by
  obtain ⟨_, -, heq⟩ := map_eq_some_iff.mp hb
  cases heq
  exact h

variable {alt : Reader TypeAlternative} {u : Reader TypeExpr}

theorem yields_union (h : alt.Yields (·.Legible ctx)) : (union alt).Yields (·.Legible ctx) := by
  intro cs t rest ht
  exact (h.separated '|').map (fun _ _ has => TypeExpr.legible_mk has.1 has.2) ht

theorem yields_number : number.Yields (·.IsLabel) := by
  intro cs l rest hl
  unfold number at hl
  dsimp only at hl
  split at hl
  · cases hl
  · cases hl
    exact trivial

theorem yields_label : label.Yields (·.IsLabel) := by
  intro cs l rest hl
  rw [label] at hl
  split at hl
  · next r hr =>
    cases hl
    exact yields_number _ _ _ hr
  · obtain ⟨⟨w, rest'⟩, hw, heq⟩ := map_eq_some_iff.mp hl
    cases heq
    change isWord (String.ofList w).toList = true
    rw [String.toList_ofList]
    exact isWord_of_word hw

theorem yields_entryLabel : entryLabel.Yields (·.1.IsLabel) := by
  intro cs r rest hr
  unfold entryLabel at hr
  split at hr
  · cases hr
  · next l rest' hl =>
    dsimp only at hr
    split at hr
    · cases hr
    · cases hr
      exact yields_label _ _ _ hl
    · cases hr

theorem yields_entry (h : u.Yields (·.Legible ctx)) : (entry u).Yields (·.Legible ctx) := by
  intro cs e rest he
  rw [entry] at he
  split at he
  · next l optional rest' hl =>
    refine h.map (fun t _ ht => ⟨?_, ht⟩) he
    rintro l' ⟨⟩
    exact yields_entryLabel _ _ _ hl
  · exact h.map (fun t _ ht => ⟨by simp, ht⟩) he

theorem yields_shape (h : u.Yields (·.Legible ctx)) : (shape u).Yields (·.Legible ctx) := by
  intro cs hd rest hh
  rw [shape] at hh
  split at hh
  · cases hh
  · split at hh
    · cases hh
    · dsimp only at hh
      refine Yields.closing (P := fun hd => TypeHead.Legible ctx hd) ?_ hh
      exact TypeHead.legible_shape ((yields_entry h).getD_separated ',' _ _)

theorem yields_argument (h : u.Yields (·.Legible ctx)) : (argument u).Yields (·.Legible ctx) :=
  fun _ _ _ ht => h.map (fun _ _ ht => ht) ht

theorem yields_result (h : alt.Yields (·.Legible ctx)) : (result alt).Yields (·.Legible ctx) := by
  intro cs t rest ht
  unfold result at ht
  dsimp only at ht
  split at ht
  · next r hr =>
    cases ht
    split at hr
    · split at hr
      · next t' rest' hu =>
        exact Yields.closing (P := fun t => TypeExpr.Legible ctx t) (yields_union h _ _ _ hu) hr
      · cases hr
    · cases hr
  · refine h.map (fun a _ ha => TypeExpr.legible_mk (by simp) ?_) ht
    rintro b (_ | ⟨_, hb⟩)
    · exact ha
    · cases hb

theorem yields_callable (h : alt.Yields (·.Legible ctx)) : (callable alt).Yields (·.Legible ctx) := by
  intro cs hd rest hh
  have hargs := (yields_argument (yields_union h)).getD_separated ','
  rw [callable] at hh
  split at hh
  · cases hh
  · split at hh
    · cases hh
    · dsimp only at hh
      split at hh
      · cases hh
      · split at hh
        · split at hh
          · next t left hresult =>
            cases hh
            refine TypeHead.legible_callable (hargs _ _) ?_
            rintro t' ⟨⟩
            exact yields_result h _ _ _ hresult
          · cases hh
            exact TypeHead.legible_callable (hargs _ _) (by simp)
        · cases hh
          exact TypeHead.legible_callable (hargs _ _) (by simp)

theorem yields_tuple (h : u.Yields (·.Legible ctx)) : (tuple u).Yields (·.Legible ctx) := by
  intro cs hd rest hh
  unfold tuple at hh
  split at hh
  · split at hh
    · next items left hitems =>
      refine Yields.closing (P := fun hd => TypeHead.Legible ctx hd) ?_ hh
      exact TypeHead.legible_tuple (h.separated ',' _ _ _ hitems).2
    · cases hh
  · cases hh

variable (hctx : ctx.ResolvesNames)

include hctx

theorem yields_constant : constant.Yields (·.Legible ctx) := by
  intro cs h rest hh
  rw [constant] at hh
  split at hh
  · cases hh
  · next owner rest' hname =>
    split at hh
    · next rest'' =>
      obtain ⟨⟨w, left⟩, hw, heq⟩ := map_eq_some_iff.mp hh
      cases heq
      apply TypeHead.legible_constant hctx (isName_of_name hname)
      rw [String.toList_ofList]
      exact isWord_of_word hw
    · cases hh

theorem yields_generic (h : u.Yields (·.Legible ctx)) : (generic u).Yields (·.Legible ctx) := by
  intro cs hd rest hh
  rw [generic] at hh
  split at hh
  · cases hh
  · next n rest' hname =>
    have hn := isName_of_name hname
    split at hh
    · cases hh
    · split at hh
      · refine Yields.closing (P := fun hd => TypeHead.Legible ctx hd) ?_ hh
        exact TypeHead.legible_genericAny hctx hn
      · split at hh
        · next args left hargs =>
          obtain ⟨hne, hall⟩ := h.separated ',' _ _ _ hargs
          refine Yields.closing (P := fun hd => TypeHead.Legible ctx hd) ?_ hh
          exact TypeHead.legible_generic hctx hn hne hall
        · cases hh

theorem yields_head (h : alt.Yields (·.Legible ctx)) : (head alt).Yields (·.Legible ctx) := by
  intro cs hd rest hh
  have hu := yields_union h
  simp only [head, orElse_eq_orElse, orElse_eq_or, or_eq_some_iff] at hh
  rcases hh with hh | ⟨-, hh | ⟨-, hh | ⟨-, hh | ⟨-, hh | ⟨-, hh⟩⟩⟩⟩⟩
  · exact yields_constant hctx _ _ _ hh
  · exact yields_shape hu _ _ _ hh
  · exact yields_callable h _ _ _ hh
  · exact yields_tuple hu _ _ _ hh
  · exact yields_generic hctx hu _ _ _ hh
  · obtain ⟨⟨n, rest'⟩, hn, heq⟩ := map_eq_some_iff.mp hh
    cases heq
    exact TypeHead.legible_name hctx (isName_of_name hn)

theorem yields_alternativeStep (h : alt.Yields (·.Legible ctx)) :
    (alternativeStep alt).Yields (·.Legible ctx) := by
  intro cs a rest ha
  exact (yields_head hctx h).map (fun _ _ hh => TypeAlternative.legible_mk hh) ha

theorem yields_alternative (n : Nat) : (alternative n).Yields (·.Legible ctx) := by
  induction n with
  | zero =>
    intro cs a rest ha
    cases ha
  | succ n ih => exact yields_alternativeStep hctx ih

end Reader

theorem NameContext.legible_of_read (hctx : ctx.ResolvesNames) (h : ctx.read text = .ok u) :
    u.Legible ctx.templates := by
  unfold read readPart? TypeExpr.read? at h
  dsimp only at h
  split at h
  · cases h
  · next u' rest hpart =>
    split at hpart
    · cases hpart
    · next t rest' ht =>
      obtain ⟨v, hv, heq⟩ := map_eq_some_iff.mp hpart
      cases heq
      split at h
      · cases h
        exact Reader.yields_union (Reader.yields_alternative hctx _) _ _ _ ht u hv
      · cases h

end PhpFlow
