import PhpFlow.Proofs.Legible
import PhpFlow.Proofs.Nesting

/-!
# Reading what is written

The text of a legible type is read, in front of anything that may follow a type, as one expression and to its
end. A callable is written with its result last, so its result must not be a union: the alternatives after the
first would be taken for alternatives to the callable.
-/
namespace PhpFlow

open List

namespace Reader

variable {ds text : List Char} {u : Reader TypeExpr} {t : TypeExpr}

/-- A result that is not a union is read like any alternative. -/
theorem Takes.result {alt : Reader TypeAlternative} {a : TypeAlternative} (hparen : '(' ∉ text.head?)
    (hne : text ≠ []) (h : Takes ds text alt a) : Takes ds text (result alt) ⟨[a]⟩ := by
  intro y hy
  obtain ⟨c, cs, rfl⟩ := exists_cons_of_ne_nil hne
  have hnone : parenthesized alt (c :: cs ++ y) = none := by
    apply parenthesized_of_ne
    rintro z ⟨⟩
    exact hparen rfl
  rw [result_eq, hnone, h y hy]
  rfl

/-- The type of an argument, where no variable follows it. -/
theorem Takes.argument (hsub : ds ⊆ [',', ')']) (h : Takes ds text u t) : Takes ds text (argument u) t := by
  intro y hy
  have hnone : argumentName (skip y) = none :=
    argumentName_eq_none fun d hd =>
      forall_mem_of_all (p := fun d => d ∉ variableMarks) (by decide) d (hsub (hy d hd))
  rw [Reader.argument, h y hy]
  simp only [Option.map_some, hnone, Option.getD_none]

/-- An alternative without a question mark and brackets is its head. -/
theorem Takes.alternative {hd : TypeHead} (hmark : '?' ∉ text.head?) (hne : text ≠ [])
    (h : Takes alternativeEnds text (head anyAlternative) hd) :
    Takes alternativeEnds text anyAlternative ⟨false, hd, 0⟩ := by
  intro y hy
  obtain ⟨c, cs, rfl⟩ := exists_cons_of_ne_nil hne
  have hc : c ≠ '?' := by
    rintro rfl
    exact hmark rfl
  rw [anyAlternative_eq, alternativeStep_eq, cons_append, nullMark_cons hc, ← cons_append, h y hy]
  simp only [Option.map_some, brackets_of_opens _ hy]

theorem Takes.union {alt : Reader TypeAlternative} {as : List TypeAlternative} (hbegins : Begins text)
    (h : Takes ds text (Reader.separated '|' alt) as) : Takes ds text (union alt) ⟨as⟩ := by
  intro y hy
  rw [Reader.union, hbegins.skip_append, h y hy]
  rfl

end Reader

/-! ## Labels -/

def ArrayKey.label : ArrayKey → EntryLabel
  | .int n => .number (decide (n < 0)) (Nat.toDigits 10 n.natAbs)
  | .text s => .word s

theorem toList_toString_int (n : Int) :
    (toString n).toList = (if n < 0 then ['-'] else []) ++ Nat.toDigits 10 n.natAbs := by
  rw [Int.toString_eq_repr, Int.repr_eq_if]
  by_cases hn : 0 ≤ n
  · have habs : n.toNat = n.natAbs := by omega
    rw [if_pos hn, if_neg (by omega), habs, Nat.repr_eq_ofList_toDigits, String.toList_ofList, nil_append]
  · have habs : (-n).toNat = n.natAbs := by omega
    rw [if_neg hn, if_pos (by omega), habs, Nat.repr_eq_ofList_toDigits, String.toList_append,
      String.toList_ofList, String.toList_ofList]

namespace Reader

variable {ds text rest after : List Char}
variable {k : ArrayKey}

theorem number_digits {ds : List Char} (hne : ds ≠ []) (hds : ∀ d ∈ ds, d.isDigit = true)
    (hafter : ∀ c ∈ after.head?, c.isDigit = false) (negative : Bool) :
    number ((if negative then ['-'] else []) ++ ds ++ after) = some (.number negative ds, after) := by
  have htake : (ds ++ after).takeWhile Char.isDigit = ds := by
    rw [takeWhile_append_of_pos hds]
    cases after <;> simp_all
  have hdrop : (ds ++ after).dropWhile Char.isDigit = after := by
    rw [dropWhile_append_of_pos hds]
    cases after <;> simp_all
  obtain ⟨d, ds, rfl⟩ := exists_cons_of_ne_nil hne
  have hminus : d ≠ '-' := by
    rintro rfl
    exact absurd (hds '-' mem_cons_self) (by decide)
  cases negative with
  | true =>
    change number ('-' :: (d :: ds ++ after)) = _
    simp only [number, htake, hdrop]
  | false =>
    change number (d :: ds ++ after) = _
    unfold number
    split
    · next heq =>
      split at heq
      · next hcons =>
        cases hcons
        exact absurd rfl hminus
      · cases heq
        simp only [htake, hdrop]

theorem label_append (hk : k.IsLabel) (hmarks : Opens ['?', ':'] after) :
    label (k.toText.toList ++ after) = some (k.label, after) := by
  cases k with
  | int n =>
    have hafter : ∀ c ∈ after.head?, c.isDigit = false := fun c hc =>
      forall_mem_of_all (p := fun c => c.isDigit = false) (by decide) c (hmarks c hc)
    have hdigits : ∀ d ∈ Nat.toDigits 10 n.natAbs, d.isDigit = true := fun d hd =>
      Nat.isDigit_of_mem_toDigits (by decide) (by decide) hd
    have hread := number_digits Nat.toDigits_ne_nil hdigits hafter (decide (n < 0))
    simp only [decide_eq_true_eq] at hread
    rw [ArrayKey.toText, toList_toString_int, label, hread]
    rfl
  | text s =>
    have hword : isWord s.toList = true := hk
    have hread := word_append hword fun c hc =>
      forall_mem_of_all (p := fun c => isWordPart c = false) (by decide) c (hmarks c hc)
    obtain ⟨c, cs, hs, hc⟩ := exists_cons_of_isWord hword
    have hnumber : number (s.toList ++ after) = none := by
      rw [hs]
      exact number_eq_none hc
    rw [ArrayKey.toText, label, hnumber, hread]
    simp [ArrayKey.label]

/-- The label of a field, the mark of an optional one, and a colon with a space. -/
theorem entryLabel_append (hk : k.IsLabel) (o : Bool) (rest : List Char) :
    entryLabel (k.toText.toList ++ ((if o then ['?'] else []) ++ ':' :: ' ' :: rest)) =
      some ((k.label, o), ' ' :: rest) := by
  have hopens : Opens ['?', ':'] ((if o then ['?'] else []) ++ ':' :: ' ' :: rest) := by
    cases o <;> exact opens_cons (by decide)
  have hquestion : Text.isSpace '?' = false := by decide
  have hcolon : Text.isSpace ':' = false := by decide
  rw [entryLabel, label_append hk hopens]
  cases o <;> simp [skip_cons hquestion, skip_cons hcolon]

theorem Takes.entry {u : Reader TypeExpr} {t : TypeExpr} (hk : k.IsLabel) (o : Bool) (hbegins : Begins text)
    (h : Takes ds text u t) : Takes ds (k.toText.toList ++ ((if o then ['?'] else []) ++ ':' :: ' ' :: text))
      (entry u) ⟨some k.label, o, t⟩ := by
  intro y hy
  simp only [append_assoc, cons_append]
  rw [Reader.entry, entryLabel_append hk]
  simp only [skip_space, hbegins.skip_append, h y hy, Option.map_some]

theorem begins_label (hk : k.IsLabel) (text : List Char) : Begins (k.toText.toList ++ text) := by
  have append {w : List Char} (h : Begins w) : Begins (w ++ text) := by
    obtain ⟨c, cs, rfl, hc⟩ := h
    exact ⟨c, cs ++ text, rfl, hc⟩
  cases k with
  | text s => exact append (.of_isWord hk)
  | int n =>
    rw [ArrayKey.toText, toList_toString_int]
    split
    · exact ⟨'-', _, rfl, by decide⟩
    · obtain ⟨d, ds, hds⟩ := exists_cons_of_ne_nil (Nat.toDigits_ne_nil (n := n.natAbs) (b := 10))
      have hd : d.isDigit = true :=
        Nat.isDigit_of_mem_toDigits (b := 10) (n := n.natAbs) (by decide) (by decide) (by simp [hds])
      rw [hds]
      exact append (.of_isWordPart (by simp [isWordPart, Char.isAlphanum, hd]))

end Reader

/-! ## The expressions of written types -/

mutual

def Atom.head : Atom → TypeHead
  | .primitive p => .name p.word
  | .list v => .generic "array" [v.expr]
  | .map k v => .generic "array" [k.expr, v.expr]
  | .shape fs => .shape (fieldEntries fs)
  | .callable as r => .callable (unionExprs as) (resultExpr r)
  | .named q _ => .name q.toText
  | .generic b as => .generic b.toText (unionExprs as)
  | .classConstant q c => .constant q.toText c
  | .reference k t =>
    match k, t with
    | .classString, some q => .generic "class-string" [⟨[⟨false, .name q.toText, 0⟩]⟩]
    | k, _ => .name k.word
  | .template n => .name n

def TypeUnion.expr : TypeUnion → TypeExpr
  | ⟨as⟩ => ⟨alternatives as⟩

def alternatives : List Atom → List TypeAlternative
  | [] => []
  | a :: as => ⟨false, a.head, 0⟩ :: alternatives as

def unionExprs : List TypeUnion → List TypeExpr
  | [] => []
  | u :: us => u.expr :: unionExprs us

def fieldEntries : List ShapeField → List TypeEntry
  | [] => []
  | ⟨k, t, o⟩ :: fs => ⟨some k.label, o, t.expr⟩ :: fieldEntries fs

def resultExpr : Option TypeUnion → Option TypeExpr
  | none => none
  | some u => some u.expr

end

mutual

/-- No callable in the type has a union of several atoms for its result. -/
def Atom.hasPlainResults : Atom → Bool
  | .list v => v.hasPlainResults
  | .map k v => k.hasPlainResults && v.hasPlainResults
  | .shape fs => fieldsHavePlainResults fs
  | .callable as r => unionsHavePlainResults as && resultIsPlain r
  | .generic b as => b.hasPlainResults && unionsHavePlainResults as
  | .primitive _ | .named _ _ | .classConstant _ _ | .reference _ _ | .template _ => true

def TypeUnion.hasPlainResults : TypeUnion → Bool
  | ⟨as⟩ => atomsHavePlainResults as

def atomsHavePlainResults : List Atom → Bool
  | [] => true
  | a :: as => a.hasPlainResults && atomsHavePlainResults as

def unionsHavePlainResults : List TypeUnion → Bool
  | [] => true
  | u :: us => u.hasPlainResults && unionsHavePlainResults us

def fieldsHavePlainResults : List ShapeField → Bool
  | [] => true
  | ⟨_, t, _⟩ :: fs => t.hasPlainResults && fieldsHavePlainResults fs

def resultIsPlain : Option TypeUnion → Bool
  | none => true
  | some u => u.size ≤ 1 && u.hasPlainResults

end

def ShapeField.toText (f : ShapeField) : String :=
  f.key.toText ++ (if f.optional then "?" else "") ++ ": " ++ f.type.toText

theorem atomTexts_eq_map (as : List Atom) : atomTexts as = as.map Atom.toText := by
  induction as with
  | nil => rfl
  | cons a as ih => rw [atomTexts, ih, map_cons]

theorem unionTexts_eq_map (us : List TypeUnion) : unionTexts us = us.map TypeUnion.toText := by
  induction us with
  | nil => rfl
  | cons u us ih => rw [unionTexts, ih, map_cons]

theorem fieldTexts_eq_map (fs : List ShapeField) : fieldTexts fs = fs.map ShapeField.toText := by
  induction fs with
  | nil => rfl
  | cons f fs ih =>
    obtain ⟨k, t, o⟩ := f
    rw [fieldTexts, ih, map_cons, ShapeField.toText]

theorem alternatives_eq_map (as : List Atom) : alternatives as = as.map fun a => ⟨false, a.head, 0⟩ := by
  induction as with
  | nil => rfl
  | cons a as ih => rw [alternatives, ih, map_cons]

theorem unionExprs_eq_map (us : List TypeUnion) : unionExprs us = us.map TypeUnion.expr := by
  induction us with
  | nil => rfl
  | cons u us ih => rw [unionExprs, ih, map_cons]

theorem fieldEntries_eq_map (fs : List ShapeField) :
    fieldEntries fs = fs.map fun f => ⟨some f.key.label, f.optional, f.type.expr⟩ := by
  induction fs with
  | nil => rfl
  | cons f fs ih =>
    obtain ⟨k, t, o⟩ := f
    rw [fieldEntries, ih, map_cons]

/-! ## Texts at a glance -/

namespace Reader

def Leads (text : List Char) : Prop := ∃ c cs, text = c :: cs ∧ (isWordStart c = true ∨ c = '\\')

variable {text rest : List Char}

theorem IsName.leads (h : IsName text) : Leads text := h.exists_cons

theorem Leads.append (h : Leads text) (rest : List Char) : Leads (text ++ rest) := by
  obtain ⟨c, cs, rfl, hc⟩ := h
  exact ⟨c, cs ++ rest, rfl, hc⟩

theorem Leads.begins (h : Leads text) : Begins text := by
  obtain ⟨c, cs, rfl, hc | rfl⟩ := h
  · exact .of_isWordPart (isWordPart_of_isWordStart hc)
  · exact ⟨_, cs, rfl, by decide⟩

theorem Leads.ne_nil (h : Leads text) : text ≠ [] := by
  obtain ⟨c, cs, rfl, -⟩ := h
  exact cons_ne_nil c cs

theorem Leads.ne {c : Char} {cs : List Char} (h : Leads (c :: cs)) {d : Char}
    (hd : d ∈ ['?', '(', '*']) : c ≠ d := by
  obtain ⟨e, es, heq, hc⟩ := h
  cases heq
  rintro rfl
  rcases hc with hc | rfl
  · have hmark : ∀ d ∈ ['?', '(', '*'], isWordStart d = false := forall_mem_of_all (by decide)
    rw [hmark c hd] at hc
    cases hc
  · exact absurd hd (by decide)

theorem Leads.not_mem_head (h : Leads text) {d : Char} (hd : d ∈ ['?', '(', '*']) : d ∉ text.head? := by
  obtain ⟨c, cs, rfl, -⟩ := id h
  intro hmem
  obtain rfl : c = d := by simpa using hmem
  exact h.ne hd rfl

end Reader

open Reader

variable {templates : List String}
variable {u : TypeUnion}

theorem Primitive.isName_word {p : Primitive} (hp : p ≠ .unknown) : IsName p.word.toList := by
  apply isName_of_isWord
  cases p <;> first | decide | exact absurd rfl hp

theorem Reference.isName_word (k : Reference) : IsName k.word.toList := by
  apply isName_of_isWord
  cases k <;> decide

theorem isName_array : IsName "array".toList := isName_of_isWord (by decide)

theorem isName_callable : IsName "callable".toList := isName_of_isWord (by decide)

namespace Atom

theorem isName_of_isPlain {a : Atom} (hplain : a.isPlain = true) (ha : a.Legible templates) :
    IsName a.toText.toList := by
  cases a with
  | primitive p => exact p.isName_word ha
  | named q s => exact QualifiedName.IsProper.isName ha
  | reference k t =>
    cases t with
    | none =>
      have htext : (Atom.reference k none).toText = k.word := by cases k <;> rfl
      rw [htext]
      exact k.isName_word
    | some q => cases hplain
  | template n => exact isName_of_isWord ha.1
  | _ => cases hplain

theorem toList_list (v : TypeUnion) :
    (Atom.list v).toText.toList = "array".toList ++ '<' :: (v.toText.toList ++ ['>']) := by
  rw [toText]
  simp

theorem toList_map (k v : TypeUnion) : (Atom.map k v).toText.toList =
    "array".toList ++ '<' :: (List.intercalate [',', ' '] [k.toText.toList, v.toText.toList] ++ ['>']) := by
  rw [toText]
  simp

theorem toList_shape (fs : List ShapeField) : (Atom.shape fs).toText.toList =
    "array".toList ++ '\x7b' ::
      (List.intercalate [',', ' '] (fs.map fun f => f.toText.toList) ++ ['\x7d']) := by
  rw [toText, fieldTexts_eq_map]
  simp only [String.toList_append, String.toList_intercalate, map_map]
  rfl

theorem toList_callable (as : List TypeUnion) (r : Option TypeUnion) : (Atom.callable as r).toText.toList =
    "callable".toList ++ '(' :: (List.intercalate [',', ' '] (as.map fun u => u.toText.toList) ++
      ')' :: (resultText r).toList) := by
  rw [toText, unionTexts_eq_map]
  simp
  rfl

theorem toList_generic (b : Atom) (as : List TypeUnion) : (Atom.generic b as).toText.toList =
    b.toText.toList ++ '<' :: (List.intercalate [',', ' '] (as.map fun u => u.toText.toList) ++ ['>']) := by
  rw [toText, unionTexts_eq_map]
  simp
  rfl

theorem toList_classConstant (q : QualifiedName) (c : String) :
    (Atom.classConstant q c).toText.toList = q.toText.toList ++ ':' :: ':' :: c.toList := by
  rw [toText]
  simp

theorem toList_classString (q : QualifiedName) : (Atom.reference .classString (some q)).toText.toList =
    "class-string".toList ++ '<' :: (q.toText.toList ++ ['>']) := by
  rw [toText]
  simp

/-- Every legible atom is written like a name at first. -/
theorem leads {a : Atom} (ha : a.Legible templates) : Leads a.toText.toList := by
  cases a with
  | list v =>
    rw [toList_list]
    exact isName_array.leads.append _
  | map k v =>
    rw [toList_map]
    exact isName_array.leads.append _
  | shape fs =>
    rw [toList_shape]
    exact isName_array.leads.append _
  | callable as r =>
    rw [toList_callable]
    exact isName_callable.leads.append _
  | generic b as =>
    rw [toList_generic]
    exact (isName_of_isPlain ha.1 ha.2.1).leads.append _
  | classConstant q c =>
    rw [toList_classConstant]
    exact ha.1.isName.leads.append _
  | reference k t =>
    cases t with
    | none => exact (isName_of_isPlain rfl ha).leads
    | some q =>
      obtain ⟨rfl, hq⟩ := ha
      rw [toList_classString]
      exact IsName.leads (isName_of_isWord (by decide)) |>.append _
  | primitive _ | named _ _ | template _ => exact (isName_of_isPlain rfl ha).leads

end Atom

theorem TypeUnion.toList_toText (h : u.atoms ≠ []) :
    u.toText.toList = List.intercalate ['|'] (u.atoms.map fun a => a.toText.toList) := by
  obtain ⟨as⟩ := u
  cases as with
  | nil => exact absurd rfl h
  | cons a as =>
    rw [toText, atomTexts_eq_map, ← map_cons, String.toList_intercalate, map_map]
    rfl

theorem TypeUnion.toList_toText_single (a : Atom) : (TypeUnion.mk [a]).toText.toList = a.toText.toList := by
  rw [toList_toText (by simp)]
  simp

theorem TypeUnion.leads (hu : u.Legible templates) : Leads u.toText.toList := by
  rw [toList_toText hu.ne_nil]
  obtain ⟨as⟩ := u
  cases as with
  | nil => exact absurd rfl hu.ne_nil
  | cons a as =>
    rw [intercalate_cons]
    exact (Atom.leads (hu.atoms a mem_cons_self)).append _

theorem ShapeField.toList_toText (f : ShapeField) : f.toText.toList =
    f.key.toText.toList ++ ((if f.optional then ['?'] else []) ++ ':' :: ' ' :: f.type.toText.toList) := by
  rw [toText]
  cases f.optional <;> simp

/-! ## Reading written types -/

namespace Reader

variable {us : List TypeUnion} {fs : List ShapeField}

theorem skip_cons_of_mem_marks {m : Char} (h : m ∈ marks) (y : List Char) : skip ([] ++ m :: y) = m :: y :=
  skip_cons (isSpace_of_mem_marks h)

theorem takes_unions {part : Reader TypeExpr} (hcomma : ',' ∉ ds) (hne : us ≠ [])
    (hlegible : unionsLegible templates us) (h : ∀ u ∈ us, Takes (',' :: ds) u.toText.toList part u.expr) :
    Takes ds (List.intercalate [',', ' '] (us.map fun u => u.toText.toList)) (separated ',' part)
      (unionExprs us) := by
  rw [unionExprs_eq_map]
  exact Takes.separated (by decide) hcomma (by decide) hne
    (fun u hu => (TypeUnion.leads (unionsLegible_iff.mp hlegible u hu)).begins) h

theorem takes_arguments (hne : us ≠ []) (hlegible : unionsLegible templates us)
    (h : ∀ u ∈ us, Takes unionEnds u.toText.toList (union anyAlternative) u.expr) {n : String}
    (hn : IsName n.toList) : Takes alternativeEnds
      (n.toList ++ '<' :: (List.intercalate [',', ' '] (us.map fun u => u.toText.toList) ++ ['>']))
      (head anyAlternative) (.generic n (unionExprs us)) := by
  have hargs : Takes ['>'] _ (separated ',' (union anyAlternative)) (unionExprs us) :=
    takes_unions (by decide) hne hlegible fun u hu => (h u hu).mono (by decide)
  have hleads : Leads (List.intercalate [',', ' '] (us.map fun u => u.toText.toList)) := by
    obtain ⟨u, us, rfl⟩ := exists_cons_of_ne_nil hne
    rw [intercalate_cons]
    exact (TypeUnion.leads hlegible.1).append _
  exact takes_generic (b := []) (d := []) (e := []) hn (skip_cons_of_mem_marks (by decide))
    hleads.begins.skip_append (skip_cons_of_mem_marks (by decide)) hleads.ne_nil
    (hleads.not_mem_head (by decide)) hargs

theorem listed_arguments (hlegible : unionsLegible templates us)
    (h : ∀ u ∈ us, Takes unionEnds u.toText.toList (union anyAlternative) u.expr) (y : List Char) :
    listed (argument (union anyAlternative))
      (List.intercalate [',', ' '] (us.map fun u => u.toText.toList) ++ ')' :: y) =
        (unionExprs us, ')' :: y) := by
  cases us with
  | nil =>
    refine listed_of_none ?_
    rw [map_nil, intercalate_nil, nil_append, skip_cons (by decide), argument,
      union_anyAlternative_eq_none (by decide), Option.map_none]
  | cons u us =>
    refine listed_append (takes_unions (by decide) (by simp) hlegible fun v hv => ?_) ?_ (by decide) y
    · exact Takes.argument (by decide) ((h v hv).mono (by decide))
    · rw [intercalate_cons]
      exact ((TypeUnion.leads hlegible.1).append _).begins

theorem fieldsLegible_iff :
    fieldsLegible templates fs ↔ ∀ f ∈ fs, f.key.IsLabel ∧ f.type.Legible templates := by
  induction fs with
  | nil => simp [fieldsLegible]
  | cons f fs ih =>
    obtain ⟨k, t, o⟩ := f
    simp [fieldsLegible, ih, and_assoc]

theorem listed_fields (hlegible : fieldsLegible templates fs)
    (h : ∀ f ∈ fs, Takes unionEnds f.type.toText.toList (union anyAlternative) f.type.expr) (y : List Char) :
    listed (entry (union anyAlternative))
      (List.intercalate [',', ' '] (fs.map fun f => f.toText.toList) ++ '\x7d' :: y) =
        (fieldEntries fs, '\x7d' :: y) := by
  have hfields := fieldsLegible_iff.mp hlegible
  have hbegins : ∀ f ∈ fs, Begins f.toText.toList := by
    intro f hf
    rw [f.toList_toText]
    exact begins_label (hfields f hf).1 _
  have htakes : ∀ f ∈ fs, Takes [',', '\x7d'] f.toText.toList (entry (union anyAlternative))
      ⟨some f.key.label, f.optional, f.type.expr⟩ := by
    intro f hf
    rw [f.toList_toText]
    exact Takes.entry (hfields f hf).1 f.optional (TypeUnion.leads (hfields f hf).2).begins
      ((h f hf).mono (by decide))
  rw [fieldEntries_eq_map]
  cases fs with
  | nil =>
    refine listed_of_none ?_
    rw [map_nil, intercalate_nil, nil_append, skip_cons (by decide)]
    exact entry_eq_none _ (by decide) y
  | cons f fs =>
    refine listed_append (Takes.separated (by decide) (by decide) (by decide) (by simp) hbegins htakes) ?_
      (by decide) y
    rw [intercalate_cons]
    obtain ⟨c, cs, hc, hspace⟩ := hbegins f mem_cons_self
    rw [hc]
    exact ⟨c, _, rfl, hspace⟩

end Reader

theorem takes_union (hu : u.Legible templates)
    (h : ∀ a ∈ u.atoms, Takes alternativeEnds a.toText.toList anyAlternative ⟨false, a.head, 0⟩) :
    Takes unionEnds u.toText.toList (union anyAlternative) u.expr := by
  have hleads := u.leads hu
  rw [u.toList_toText hu.ne_nil] at hleads ⊢
  obtain ⟨as⟩ := u
  rw [TypeUnion.expr, alternatives_eq_map]
  refine Takes.union hleads.begins (Takes.separated (by decide) (by decide) (by decide) hu.1 ?_ ?_)
  · intro a ha
    exact (Atom.leads (hu.atoms a ha)).begins
  · intro a ha
    exact (h a ha).mono (by decide)

mutual

/-- The text of a legible atom is read as its head, in front of anything that may follow it. -/
theorem Atom.takes_toText (a : Atom) (ha : a.Legible templates) (hr : a.hasPlainResults = true) :
    Takes alternativeEnds a.toText.toList anyAlternative ⟨false, a.head, 0⟩ := by
  have hleads := Atom.leads ha
  refine Takes.alternative (hleads.not_mem_head (by decide)) hleads.ne_nil ?_
  have hname {n : String} (hn : IsName n.toList) :
      Takes alternativeEnds n.toList (head anyAlternative) (.name n) := (takes_name hn).mono (by decide)
  cases a with
  | primitive p => exact hname (p.isName_word ha)
  | named q s => exact hname (QualifiedName.IsProper.isName ha)
  | template x => exact hname (isName_of_isWord ha.1)
  | list v =>
    rw [Atom.toList_list]
    have hargs := takes_arguments (cons_ne_nil v []) ⟨ha, trivial⟩ (by simpa using v.takes_toText ha hr)
      isName_array
    simpa [Atom.head, unionExprs] using hargs
  | map k v =>
    rw [Atom.toList_map]
    rw [Atom.hasPlainResults, Bool.and_eq_true] at hr
    have hargs := takes_arguments (cons_ne_nil k [v]) ⟨ha.1, ha.2, trivial⟩
      (by simpa using ⟨k.takes_toText ha.1 hr.1, v.takes_toText ha.2 hr.2⟩) isName_array
    simpa [Atom.head, unionExprs] using hargs
  | shape fs =>
    intro y _
    have hfields := listed_fields ha (fieldTypes_taken fs ha hr) y
    rw [Atom.toList_shape]
    simp only [append_assoc, cons_append, nil_append]
    refine (head_of_shape (b := []) (y := y) isName_array (fun _ => rfl)
      (skip_cons_of_mem_marks (by decide)) ?_).trans ?_
    · rw [hfields]
      rfl
    · rw [hfields]
      rfl
  | callable as r =>
    rw [Atom.hasPlainResults, Bool.and_eq_true] at hr
    intro y hy
    have hargs := listed_arguments ha.1 (unions_taken as ha.1 hr.1)
    have hafter : afterArguments anyAlternative (unionExprs as) ((resultText r).toList ++ y) =
        some ((Atom.callable as r).head, y) := by
      cases r with
      | none => exact (takes_afterArguments (unionExprs as)).mono (by decide) y hy
      | some u =>
        have htext : (resultText (some u)).toList = [] ++ ':' :: ([' '] ++ u.toText.toList) := by
          rw [resultText]
          simp
        rw [htext]
        refine Takes.afterArguments (unionExprs as) (skip_cons_of_mem_marks (by decide)) (fun z => ?_)
          (result_taken (some u) ha.2 hr.2 u rfl) y hy
        exact (skip_space _).trans ((u.leads ha.2).begins.skip_append z)
    rw [Atom.toList_callable]
    simp only [append_assoc, cons_append]
    refine head_of_callable (b := []) (s := (resultText r).toList ++ y) isName_callable (fun _ => rfl)
      (skip_cons_of_mem_marks (by decide)) ?_ ?_
    · rw [hargs]
      exact skip_cons (by decide)
    · rw [hargs]
      exact hafter
  | generic b as =>
    rw [Atom.toList_generic]
    rw [Atom.hasPlainResults, Bool.and_eq_true] at hr
    obtain ⟨hplain, hb, hne, -, has⟩ := ha
    exact takes_arguments hne has (unions_taken as has hr.2) (Atom.isName_of_isPlain hplain hb)
  | classConstant q c =>
    rw [Atom.toList_classConstant]
    have hread : Takes headEnds _ (head anyAlternative) _ := takes_constant (b := []) (d := []) ha.1.isName ha.2
      (skip_cons_of_mem_marks (by decide)) (Begins.of_isWord ha.2).skip_append
    rw [String.ofList_toList] at hread
    exact hread.mono (by decide)
  | reference k q =>
    cases q with
    | none => cases k <;> exact hname (Atom.isName_of_isPlain rfl ha)
    | some q =>
      obtain ⟨rfl, hq⟩ := ha
      rw [Atom.toList_classString]
      -- The class is read like a type of one atom.
      have hlegible : (TypeUnion.mk [.named q ""]).Legible templates := TypeUnion.legible_single hq
      have hatoms : ∀ a ∈ [Atom.named q ""],
          Takes alternativeEnds a.toText.toList anyAlternative ⟨false, a.head, 0⟩ := by
        rintro _ (_ | ⟨_, ⟨⟩⟩)
        have hleads := hq.isName.leads
        exact Takes.alternative (hleads.not_mem_head (by decide)) hleads.ne_nil (hname hq.isName)
      have hargs := takes_arguments (cons_ne_nil _ []) ⟨hlegible, trivial⟩
        (by simpa using takes_union hlegible hatoms)
        (isName_of_isWord (by decide : isWord "class-string".toList = true))
      rw [map_cons, TypeUnion.toList_toText_single] at hargs
      simpa [Atom.head, Atom.toText, unionExprs, TypeUnion.expr, alternatives] using hargs

theorem TypeUnion.takes_toText (u : TypeUnion) (hu : u.Legible templates) (hr : u.hasPlainResults = true) :
    Takes unionEnds u.toText.toList (union anyAlternative) u.expr := by
  refine takes_union hu ?_
  obtain ⟨as⟩ := u
  exact atoms_taken as hu.2.2 hr

theorem atoms_taken (as : List Atom) (has : atomsLegible templates as) (hr : atomsHavePlainResults as = true) :
    ∀ a ∈ as, Takes alternativeEnds a.toText.toList anyAlternative ⟨false, a.head, 0⟩ := by
  cases as with
  | nil => nofun
  | cons a as =>
    rw [atomsHavePlainResults, Bool.and_eq_true] at hr
    exact forall_mem_cons.mpr ⟨a.takes_toText has.1 hr.1, atoms_taken as has.2 hr.2⟩

theorem unions_taken (us : List TypeUnion) (hus : unionsLegible templates us)
    (hr : unionsHavePlainResults us = true) :
    ∀ u ∈ us, Takes unionEnds u.toText.toList (union anyAlternative) u.expr := by
  cases us with
  | nil => nofun
  | cons u us =>
    rw [unionsHavePlainResults, Bool.and_eq_true] at hr
    exact forall_mem_cons.mpr ⟨u.takes_toText hus.1 hr.1, unions_taken us hus.2 hr.2⟩

theorem result_taken (r : Option TypeUnion) (hr : resultLegible templates r) (hplain : resultIsPlain r = true) :
    ∀ u, r = some u → Takes alternativeEnds u.toText.toList (result anyAlternative) u.expr := by
  cases r with
  | none => nofun
  | some u =>
    obtain ⟨as⟩ := u
    rw [resultIsPlain, Bool.and_eq_true] at hplain
    rintro _ ⟨⟩
    match as with
    | [] => exact absurd rfl hr.1
    | [a] =>
      have hleads := Atom.leads hr.2.2.1
      rw [TypeUnion.hasPlainResults, atomsHavePlainResults, Bool.and_eq_true] at hplain
      exact Takes.result (hleads.not_mem_head (by decide)) hleads.ne_nil (a.takes_toText hr.2.2.1 hplain.2.1)
    | _ :: _ :: _ => simp [TypeUnion.size] at hplain

theorem fieldTypes_taken (fs : List ShapeField) (hfs : fieldsLegible templates fs)
    (hr : fieldsHavePlainResults fs = true) :
    ∀ f ∈ fs, Takes unionEnds f.type.toText.toList (union anyAlternative) f.type.expr := by
  cases fs with
  | nil => nofun
  | cons f fs =>
    obtain ⟨k, t, o⟩ := f
    rw [fieldsHavePlainResults, Bool.and_eq_true] at hr
    exact forall_mem_cons.mpr ⟨t.takes_toText hfs.2.1 hr.1, fieldTypes_taken fs hfs.2.2 hr.2⟩

end

end PhpFlow
