import PhpFlow.Proofs.Bounds
import Mathlib.Data.List.Dedup

/-!
# The keys of array literals

The keys that stand in a literal decide on the keys of all its elements. If some elements share a key, the
array has it in the place of the first of them and a shape in that of the last. A key is out of range just if
an element without a key stands behind one with the last key.
-/
namespace PhpFlow

open List

variable {s : State}

def ArrayKey.number (next : Int) : List (Option ArrayKey) → List ArrayKey
  | [] => []
  | k :: ks => (orNext next k).1 :: number (orNext next k).2 ks

def IndexKey.ofOption : Option ArrayKey → IndexKey
  | none => .absent
  | some k => .known k

theorem IndexKey.exists_of_place? {next : Int} {key : IndexKey} {p : ArrayKey × Int}
    (h : key.place? next = some p) : ∃ k, key = ofOption k ∧ p = ArrayKey.orNext next k := by
  cases key with
  | absent => exact ⟨none, rfl, (Option.some.inj h).symm⟩
  | unknown => cases h
  | known k => exact ⟨some k, rfl, (Option.some.inj h).symm⟩

def ElementMeaning.Keyed (s : State) (e : ElementMeaning) (k : Option ArrayKey) : Prop :=
  (Meaning.key e.key).Gives s (.ofOption k)

def ElementMeaning.Typed (s : State) (e : ElementMeaning) (u : TypeUnion) : Prop :=
  ∃ t, e.value.type.Gives s t ∧ u = t.getD (.prim .mixed)

def Element.meaning (e : Element) : ElementMeaning :=
  ⟨e.value.meaning, optionMeaning e.key, e.spread, e.byRef⟩

theorem elementMeanings_eq (es : List Element) : elementMeanings es = es.map Element.meaning := by
  induction es with
  | nil => rfl
  | cons e es ih =>
    obtain ⟨_, v, k, spread, byRef⟩ := e
    exact congrArg (_ :: ·) ih

/-! ## Arrays -/

theorem Value.keys_setEntry (k : ArrayKey) (v : Value) (es : List (ArrayKey × Value)) :
    (setEntry k v es).map Prod.fst =
      if k ∈ es.map Prod.fst then es.map Prod.fst else es.map Prod.fst ++ [k] := by
  induction es with
  | nil => rfl
  | cons e es ih =>
    rw [setEntry]
    by_cases he : e.1 = k
    · simp [he]
    · rw [if_neg he, map_cons, ih, map_cons]
      have hk : k ∈ e.1 :: es.map Prod.fst ↔ k ∈ es.map Prod.fst := by simp [Ne.symm he]
      by_cases hmem : k ∈ es.map Prod.fst
      · rw [if_pos hmem, if_pos (hk.mpr hmem)]
      · rw [if_neg hmem, if_neg (hk.not.mpr hmem)]
        rfl

def ArrayKey.firsts (ks : List ArrayKey) : List ArrayKey := ks.reverse.dedup.reverse

theorem ArrayKey.firsts_concat (ks : List ArrayKey) (k : ArrayKey) :
    firsts (ks ++ [k]) = if k ∈ firsts ks then firsts ks else firsts ks ++ [k] := by
  unfold firsts
  rw [reverse_append, reverse_singleton, singleton_append, dedup_cons]
  by_cases hk : k ∈ ks <;> simp [hk]

theorem ArrayLiteral.exists_of_valueFrom {es : List ElementMeaning} {next : Int}
    {before : List (ArrayKey × Value)} (ks : List ArrayKey) {v : Value}
    (hbefore : before.map Prod.fst = ArrayKey.firsts ks) (h : (valueFrom next before es).Gives s (some v)) :
    ∃ written entries, List.Forall₂ (ElementMeaning.Keyed s) es written ∧ v = .array entries ∧
      entries.map Prod.fst = ArrayKey.firsts (ks ++ ArrayKey.number next written) := by
  induction es generalizing next before ks with
  | nil =>
    obtain rfl : Value.array before = v := by simpa [valueFrom] using h
    exact ⟨[], before, .nil, rfl, by simpa [ArrayKey.number] using hbefore⟩
  | cons e es ih =>
    rw [valueFrom] at h
    split at h
    · simp at h
    · obtain ⟨value, -, h⟩ := Query.gives_bind.mp h
      cases value with
      | none => simp at h
      | some x =>
        obtain ⟨key, hkey, h⟩ := Query.gives_bind.mp h
        split at h
        · simp at h
        · next k next' hplace =>
          obtain ⟨own, rfl, hown⟩ := IndexKey.exists_of_place? hplace
          have hset : (Value.setEntry k x before).map Prod.fst = ArrayKey.firsts (ks ++ [k]) := by
            rw [Value.keys_setEntry, hbefore, ArrayKey.firsts_concat]
          obtain ⟨written, entries, hwritten, rfl, hentries⟩ := ih _ hset h
          refine ⟨own :: written, entries, .cons hkey hwritten, rfl, ?_⟩
          rw [hentries, ArrayKey.number, ← hown, append_assoc, singleton_append]

/-! ## Shapes -/

theorem dedup_concat {α : Type} [DecidableEq α] (xs : List α) (x : α) :
    (xs ++ [x]).dedup = xs.dedup.filter (· ≠ x) ++ [x] := by
  induction xs with
  | nil => rfl
  | cons y ys ih =>
    rw [cons_append]
    by_cases hy : y ∈ ys
    · rw [dedup_cons_of_mem hy, dedup_cons_of_mem (by simp [hy]), ih]
    · rw [dedup_cons_of_notMem hy]
      by_cases hyx : y = x
      · rw [dedup_cons_of_mem (by simp [hyx]), ih, filter_cons_of_neg (by simp [hyx])]
      · rw [dedup_cons_of_notMem (by simp [hy, hyx]), ih, filter_cons_of_pos (by simp [hyx])]
        rfl

/-- Every key has the type of the last element with it, and its place. -/
structure ShapeField.Last (ps : List (ArrayKey × TypeUnion)) (fs : List ShapeField) : Prop where
  keys : fs.map (·.key) = (ps.map Prod.fst).dedup
  types : ∀ f ∈ fs, ps.reverse.lookup f.key = some f.type

theorem ShapeField.Last.append {ps : List (ArrayKey × TypeUnion)} {fs : List ShapeField} (h : Last ps fs)
    (k : ArrayKey) (u : TypeUnion) : Last (ps ++ [(k, u)]) (append ⟨k, u, false⟩ fs) where
  keys := by
    rw [map_append, map_singleton, dedup_concat, ← h.keys, filter_map]
    simp [ShapeField.append, Function.comp_def]
  types f hf := by
    rw [reverse_append, reverse_singleton, singleton_append, lookup_cons]
    rcases mem_append.mp hf with hf | hf
    · obtain ⟨hf, hne⟩ := mem_filter.mp hf
      have hbeq : (f.key == k) = false := by simpa using hne
      rw [hbeq]
      exact h.types f hf
    · obtain rfl := mem_singleton.mp hf
      simp

/-- If all keys are known, the scan finds the shape. -/
theorem ArrayLiteral.exists_of_scan {es : List ElementMeaning} {written : List (Option ArrayKey)}
    (hkeys : List.Forall₂ (ElementMeaning.Keyed s) es written) (hspread : ∀ e ∈ es, e.spread = false)
    {a b : Scan} (ps : List (ArrayKey × TypeUnion)) (ha : ∃ fs, a.fields = some fs ∧ ShapeField.Last ps fs)
    (h : (scan a es).Gives s b) :
    ∃ us fs, List.Forall₂ (ElementMeaning.Typed s) es us ∧ b.fields = some fs ∧
      ShapeField.Last (ps ++ (ArrayKey.number a.next written).zip us) fs := by
  induction hkeys generalizing a ps with
  | nil =>
    obtain rfl : a = b := by simpa [scan] using h
    obtain ⟨fs, hfs, hlast⟩ := ha
    exact ⟨[], fs, .nil, hfs, by simpa using hlast⟩
  | @cons e own es written hkey _ ih =>
    rw [forall_mem_cons] at hspread
    obtain ⟨fs, hfs, hlast⟩ := ha
    obtain ⟨a', ha', h⟩ := Query.gives_bind.mp h
    obtain ⟨t, ht, ha'⟩ := Query.gives_bind.mp ha'
    rw [hspread.1] at ha'
    obtain ⟨key, hkey', ha'⟩ := Query.gives_bind.mp ha'
    obtain rfl : key = .ofOption own := Except.ok.inj (hkey'.symm.trans hkey)
    have hplace : (IndexKey.ofOption own).place? a.next = some (ArrayKey.orNext a.next own) := by
      cases own <;> rfl
    rw [hplace] at ha'
    obtain rfl := Query.gives_pure.mp ha'
    obtain ⟨us, fs', hus, hfs', hlast'⟩ := ih hspread.2 _
      ⟨_, congrArg (Option.map _) hfs, hlast.append (ArrayKey.orNext a.next own).1 (t.getD (.prim .mixed))⟩ h
    refine ⟨_ :: us, fs', .cons ⟨t, ht, rfl⟩ hus, hfs', ?_⟩
    rwa [append_assoc, singleton_append] at hlast'

/-! ## Literals -/

theorem ArrayLiteral.exists_of_value {es : List Element} {r : Range} {v : Value}
    (h : (Expr.array r es).value.Gives s (some v)) :
    ∃ written entries, List.Forall₂ (fun e => e.meaning.Keyed s) es written ∧ v = .array entries ∧
      entries.map Prod.fst = ArrayKey.firsts (ArrayKey.number 0 written) := by
  have hvalue : (valueFrom 0 [] (es.map Element.meaning)).Gives s (some v) := elementMeanings_eq es ▸ h
  obtain ⟨written, entries, hwritten, hv, hentries⟩ := exists_of_valueFrom [] rfl hvalue
  exact ⟨written, entries, List.forall₂_map_left_iff.mp hwritten, hv, hentries⟩

theorem ArrayLiteral.exists_of_type {es : List Element} {r : Range} {written : List (Option ArrayKey)}
    (hkeys : List.Forall₂ (fun e => e.meaning.Keyed s) es written) (hspread : ∀ e ∈ es, e.spread = false)
    (hunknown : (Expr.array r es).value.Gives s none) {t : Option TypeUnion}
    (h : (Expr.array r es).type.Gives s t) :
    ∃ us fs, List.Forall₂ (fun e => e.meaning.Typed s) es us ∧ t = some (.single (.shape fs)) ∧
      ShapeField.Last ((ArrayKey.number 0 written).zip us) fs := by
  have hvalue : (valueFrom 0 [] (es.map Element.meaning)).Gives s none := elementMeanings_eq es ▸ hunknown
  have htype : (ArrayLiteral.meaning (es.map Element.meaning)).type.Gives s t := elementMeanings_eq es ▸ h
  obtain ⟨v, hv, htype⟩ := Query.gives_bind.mp htype
  obtain rfl : none = v := Except.ok.inj (hvalue.symm.trans hv)
  obtain ⟨b, hb, htype⟩ := Query.gives_bind.mp htype
  obtain ⟨us, fs, hus, hfs, hlast⟩ := exists_of_scan (List.forall₂_map_left_iff.mpr hkeys)
    (forall_mem_map.mpr hspread) [] ⟨[], rfl, rfl, by simp⟩ hb
  refine ⟨us, fs, List.forall₂_map_left_iff.mp hus, ?_, hlast⟩
  rw [← Query.gives_pure.mp htype, typeOf, hfs]

theorem ArrayKey.length_number (next : Int) (ks : List (Option ArrayKey)) :
    (number next ks).length = ks.length := by
  induction ks generalizing next with
  | nil => rfl
  | cons k ks ih => exact congrArg (· + 1) (ih _)

/-- A literal that has no value, though all its keys are known, has a shape. Beside it stands a literal with
the same keys that has a value. Its array has every key in the place of the first element with that key; the
shape has it in the place of the last, together with the type of that element. So both list the same keys,
and in the same order if no key comes twice. Only a number that is too large leaves the literal without a
type. -/
theorem shape_lists_keys_of_array (s : State) (r r' : Range) (es es' : List Element)
    (hkeys : es.map (·.key) = es'.map (·.key)) (hspread : ∀ e ∈ es, e.spread = false)
    (hunknown : ((Expr.array r es).value s).1 = .ok none) (entries : List (ArrayKey × Value))
    (hvalue : ((Expr.array r' es').value s).1 = .ok (some (.array entries))) :
    (∃ written us fs, List.Forall₂ (fun e => e.meaning.Keyed s) es written ∧
      List.Forall₂ (fun e => e.meaning.Typed s) es us ∧
      ((Expr.array r es).type s).1 = .ok (some (.single (.shape fs))) ∧
      entries.map Prod.fst = ArrayKey.firsts (ArrayKey.number 0 written) ∧
      fs.map (·.key) = (ArrayKey.number 0 written).dedup ∧
      (∀ f ∈ fs, ((ArrayKey.number 0 written).zip us).reverse.lookup f.key = some f.type) ∧
      (fs.map (·.key)).Perm (entries.map Prod.fst) ∧
      ((ArrayKey.number 0 written).Nodup → fs.map (·.key) = entries.map Prod.fst)) ∨
    ∃ e, ((Expr.array r es).type s).1 = .error e ∧ e.isNumeric := by
  cases htype : ((Expr.array r es).type s).1 with
  | error e => exact .inr ⟨e, rfl, Expr.numericFaults_type _ s e htype⟩
  | ok t =>
    left
    obtain ⟨written, _, hwritten', ⟨⟩, hentries⟩ := ArrayLiteral.exists_of_value hvalue
    have hwritten : List.Forall₂ (fun e => e.meaning.Keyed s) es written := by
      have hmap : List.Forall₂ (fun k w => (Meaning.key (optionMeaning k)).Gives s (.ofOption w))
          (es'.map (·.key)) written := List.forall₂_map_left_iff.mpr hwritten'
      rw [← hkeys] at hmap
      exact (List.forall₂_map_left_iff (f := fun e : Element => e.key)).mp hmap
    obtain ⟨us, fs, hus, rfl, hlast⟩ := ArrayLiteral.exists_of_type hwritten hspread hunknown htype
    have hlength : (ArrayKey.number 0 written).length ≤ us.length := by
      rw [ArrayKey.length_number, ← hwritten.length_eq, ← hus.length_eq]
    have hfields : fs.map (·.key) = (ArrayKey.number 0 written).dedup := by
      rw [hlast.keys, map_fst_zip hlength]
    refine ⟨written, us, fs, hwritten, hus, rfl, hentries, hfields, hlast.types, ?_, fun hnodup => ?_⟩
    · rw [hfields, hentries]
      exact (reverse_perm _).symm.dedup.trans (reverse_perm _).symm
    · rw [hfields, hentries, ArrayKey.firsts, hnodup.dedup, (nodup_reverse.mpr hnodup).dedup,
        reverse_reverse]

def unknownCall : Expr := .call .zero (.name .zero "f") []

/-- `"5" => …, "a" => 2, 3` -/
def numberedElements (v : Expr) : List Element :=
  [⟨.zero, v, some (.string .zero "5"), false, false⟩,
   ⟨.zero, .integer .zero 2, some (.string .zero "a"), false, false⟩,
   ⟨.zero, .integer .zero 3, none, false, false⟩]

/-- The last element has the number after five, in the array as in the shape. -/
theorem shape_of_numberedElements :
    ((Expr.array .zero (numberedElements unknownCall)).value (.new {} {} none .discarding)).1 = .ok none ∧
    ∃ entries, ((Expr.array .zero (numberedElements (.null .zero))).value (.new {} {} none .discarding)).1 =
        .ok (some (.array entries)) ∧
      entries.map Prod.fst = [.int 5, .text "a", .int 6] ∧
      ∃ fs, ((Expr.array .zero (numberedElements unknownCall)).type (.new {} {} none .discarding)).1 =
          .ok (some (.single (.shape fs))) ∧
        (fs.map (·.key)).Perm (entries.map Prod.fst) := by
  refine ⟨rfl, _, rfl, rfl, ?_⟩
  rcases shape_lists_keys_of_array (.new {} {} none .discarding) .zero .zero (numberedElements unknownCall)
      (numberedElements (.null .zero)) rfl (by simp [numberedElements]) rfl _ rfl with
    ⟨_, _, fs, -, -, htype, -, -, -, hperm, -⟩ | ⟨e, he, -⟩
  · exact ⟨fs, htype, hperm⟩
  · cases he

/-- `0 => …, 1 => 2, 0 => 3` -/
def repeatedElements (v : Expr) : List Element :=
  [⟨.zero, v, some (.integer .zero 0), false, false⟩,
   ⟨.zero, .integer .zero 2, some (.integer .zero 1), false, false⟩,
   ⟨.zero, .integer .zero 3, some (.integer .zero 0), false, false⟩]

/-- The key that comes twice stands first in the array and last in the shape. -/
theorem shape_of_repeatedElements :
    ((Expr.array .zero (repeatedElements unknownCall)).value (.new {} {} none .discarding)).1 = .ok none ∧
    ∃ entries fs, ((Expr.array .zero (repeatedElements (.null .zero))).value
        (.new {} {} none .discarding)).1 = .ok (some (.array entries)) ∧
      ((Expr.array .zero (repeatedElements unknownCall)).type (.new {} {} none .discarding)).1 =
        .ok (some (.single (.shape fs))) ∧
      entries.map Prod.fst = [.int 0, .int 1] ∧ fs.map (·.key) = [.int 1, .int 0] :=
  ⟨rfl, _, _, rfl, rfl, rfl, rfl⟩

/-! ## The last key -/

theorem NumericText.inRange_toKey {t : String} {n : Int} (h : toKey t = .ok (.int n)) :
    Number.inRange n = true := by
  unfold toKey at h
  dsimp only at h
  split at h
  · split at h
    · cases h
    · generalize (if (Numeral.sign (dropNewline t.toList)).1 then
        -(Numeral.natOf ((Numeral.sign (dropNewline t.toList)).2.map fun d => d.toNat - 48) : Int) else
        (Numeral.natOf ((Numeral.sign (dropNewline t.toList)).2.map fun d => d.toNat - 48) : Int)) = m at h
      split at h
      · next hm =>
        cases h
        exact hm
      · cases h
  · cases h

/-- As a key a constant has 64 bits, whatever it is. -/
theorem Value.inRange_toKey? {v : Value} (hv : v.Fits) {n : Int} (h : v.toKey? = .ok (some (.int n))) :
    Number.inRange n = true := by
  cases v with
  | bool b =>
    cases h
    cases b <;> rfl
  | int m =>
    cases h
    exact fits_int.mp hv
  | float x =>
    obtain ⟨m, hm, heq⟩ := Option.map_eq_some_iff.mp (Except.ok.inj h)
    cases heq
    exact inRange_floatToInt? hm
  | string t =>
    obtain ⟨k, hk, heq⟩ := exists_of_map_ok h
    cases heq
    exact NumericText.inRange_toKey hk
  | null | array es | object q => cases h

theorem Element.inRange_key (hs : s.Fits) {e : Element} {n : Int} (h : e.meaning.Keyed s (some (.int n))) :
    Number.inRange n = true := by
  obtain ⟨_, _, key, _, _⟩ := e
  cases key with
  | none => cases h
  | some x =>
    obtain ⟨v, hv, h⟩ := Query.gives_bind.mp h
    cases v with
    | none => cases h
    | some v =>
      obtain ⟨k, hk, h⟩ := Query.gives_bind.mp h
      cases k with
      | none => cases h
      | some k =>
        cases h
        exact Value.inRange_toKey? (x.fits_value hs v hv) hk

namespace ArrayKey

/-- No element without a key stands behind one with the last key. -/
def NoneLeft (ks : List ArrayKey) (written : List (Option ArrayKey)) : Prop :=
  (ks.zip written).Pairwise fun a b => a.1 = .int (2 ^ 63 - 1) → b.2 ≠ none

def InRange (ks : List ArrayKey) : Prop := ∀ n, int n ∈ ks → -2 ^ 63 ≤ n ∧ n ≤ 2 ^ 63 - 1

theorem inRange_cons {k : ArrayKey} {ks : List ArrayKey} :
    InRange (k :: ks) ↔ (∀ n, k = int n → -2 ^ 63 ≤ n ∧ n ≤ 2 ^ 63 - 1) ∧ InRange ks := by
  simp only [InRange, mem_cons]
  refine ⟨fun h => ⟨fun n hn => h n (.inl hn.symm), fun n hn => h n (.inr hn)⟩, fun h n hn => ?_⟩
  exact hn.elim (fun hk => h.1 n hk.symm) (h.2 n)

/-- If all numbers are used up, the keys are in range just if each element has a key of its own. -/
theorem inRange_number_iff (next : Int) (hnext : 0 ≤ next ∧ next ≤ 2 ^ 63) {written : List (Option ArrayKey)}
    (hwritten : ∀ n, some (int n) ∈ written → -2 ^ 63 ≤ n ∧ n ≤ 2 ^ 63 - 1) :
    InRange (number next written) ↔
      (next = 2 ^ 63 → none ∉ written) ∧ NoneLeft (number next written) written := by
  induction written generalizing next with
  | nil => simp [InRange, NoneLeft, number]
  | cons own written ih =>
    have hrest : ∀ n, some (int n) ∈ written → -2 ^ 63 ≤ n ∧ n ≤ 2 ^ 63 - 1 :=
      fun n hn => hwritten n (mem_cons_of_mem _ hn)
    have hbehind (next : Int) (P : Prop) :
        (∀ b ∈ (number next written).zip written, P → b.2 ≠ none) ↔ (P → none ∉ written) := by
      rw [← forall_mem_map (f := Prod.snd) (P := fun w => P → w ≠ none), map_snd_zip (length_number _ _).ge]
      exact ⟨fun h hP hn => h none hn hP rfl, fun h w hw hP hn => h hP (hn ▸ hw)⟩
    rw [number, inRange_cons, NoneLeft, zip_cons_cons, pairwise_cons, hbehind]
    cases own with
    | none =>
      by_cases hlast : next = 2 ^ 63
      · refine iff_of_false (fun h => ?_) fun h => h.1 hlast mem_cons_self
        have hrange := h.1 next rfl
        omega
      · have hkey : ∀ n, int next = int n → -2 ^ 63 ≤ n ∧ n ≤ 2 ^ 63 - 1 := by
          rintro n ⟨⟩
          omega
        have hused : (next + 1 = 2 ^ 63 → none ∉ written) ↔ (int next = int (2 ^ 63 - 1) → none ∉ written) := by
          rw [int.injEq, eq_sub_iff_add_eq]
        rw [orNext, ih _ (by omega) hrest, hused]
        exact ⟨fun h => ⟨fun h' => absurd h' hlast, h.2⟩, fun h => ⟨hkey, h.2⟩⟩
    | some k =>
      have hmem : none ∉ some k :: written ↔ none ∉ written := by simp
      rw [hmem]
      cases k with
      | text t =>
        rw [orNext, ih _ hnext hrest]
        simp [NoneLeft]
      | int n =>
        have hn := hwritten n mem_cons_self
        have hused : (max next (n + 1) = 2 ^ 63 → none ∉ written) ↔
            (next = 2 ^ 63 → none ∉ written) ∧ (int n = int (2 ^ 63 - 1) → none ∉ written) := by
          rw [int.injEq, ← or_imp]
          exact imp_congr_left (by omega)
        rw [orNext, ih _ (by omega) hrest, hused, and_assoc]
        exact and_iff_right (by rintro m ⟨⟩; exact hn)

theorem mem_firsts {k : ArrayKey} {ks : List ArrayKey} : k ∈ firsts ks ↔ k ∈ ks := by simp [firsts]

end ArrayKey

/-- If all integers in the state have 64 bits and a literal has a value, then each of its keys has 64 bits
just if no element without a key stands behind one with the key `2 ^ 63 - 1`. -/
theorem keys_of_literal_have_64_bits_iff (s : State) (hs : s.Fits) (r : Range) (es : List Element)
    (entries : List (ArrayKey × Value))
    (hvalue : ((Expr.array r es).value s).1 = .ok (some (.array entries))) :
    ∃ written, List.Forall₂ (fun e => e.meaning.Keyed s) es written ∧
      entries.map Prod.fst = ArrayKey.firsts (ArrayKey.number 0 written) ∧
      ((∀ n, .int n ∈ entries.map Prod.fst → -2 ^ 63 ≤ n ∧ n ≤ 2 ^ 63 - 1) ↔
        ((ArrayKey.number 0 written).zip written).Pairwise
          fun a b => a.1 = .int (2 ^ 63 - 1) → b.2 ≠ none) := by
  obtain ⟨written, _, hwritten, ⟨⟩, hentries⟩ := ArrayLiteral.exists_of_value hvalue
  refine ⟨written, hwritten, hentries, ?_⟩
  have hrange : ∀ w ∈ written, ∀ n, w = some (.int n) → -2 ^ 63 ≤ n ∧ n ≤ 2 ^ 63 - 1 :=
    forall_mem_of_forall₂ (hwritten.imp fun e w he n hw => Number.inRange_iff.mp (e.inRange_key hs (hw ▸ he)))
  have hiff := ArrayKey.inRange_number_iff 0 (by omega) fun n hn => hrange _ hn n rfl
  simp only [hentries, ArrayKey.mem_firsts]
  exact hiff.trans (and_iff_right (by omega))

/-- `[9223372036854775806 => 1, 2]` -/
def lastKeyLiteral : List Element :=
  [⟨.zero, .integer .zero 1, some (.integer .zero 9223372036854775806), false, false⟩,
   ⟨.zero, .integer .zero 2, none, false, false⟩]

/-- With its two elements the literal reaches the last key, and there it ends. -/
theorem lastKeyLiteral_has_64_bits :
    (State.new {} {} none .discarding).Fits ∧
    ∃ entries, ((Expr.array .zero lastKeyLiteral).value (.new {} {} none .discarding)).1 =
        .ok (some (.array entries)) ∧
      entries.map Prod.fst = [.int (2 ^ 63 - 2), .int (2 ^ 63 - 1)] ∧
      ∃ written, List.Forall₂ (fun e => e.meaning.Keyed (.new {} {} none .discarding)) lastKeyLiteral written ∧
        entries.map Prod.fst = ArrayKey.firsts (ArrayKey.number 0 written) ∧
        ((∀ n, .int n ∈ entries.map Prod.fst → -2 ^ 63 ≤ n ∧ n ≤ 2 ^ 63 - 1) ↔
          ((ArrayKey.number 0 written).zip written).Pairwise
            fun a b => a.1 = .int (2 ^ 63 - 1) → b.2 ≠ none) := by
  have hfits : (State.new {} {} none .discarding).Fits := (Course.start {} none .discarding).fits.2
  exact ⟨hfits, _, rfl, rfl, keys_of_literal_have_64_bits_iff _ hfits .zero lastKeyLiteral _ rfl⟩

/-- `[9223372036854775807 => 1, 2]` has a key beyond 64 bits. -/
theorem key_after_last_key :
    (State.new {} {} none .discarding).Fits ∧
    ∃ entries, ((Expr.array .zero
        [⟨.zero, .integer .zero 1, some (.integer .zero 9223372036854775807), false, false⟩,
         ⟨.zero, .integer .zero 2, none, false, false⟩]).value (.new {} {} none .discarding)).1 =
        .ok (some (.array entries)) ∧
      .int (2 ^ 63) ∈ entries.map Prod.fst :=
  ⟨(Course.start {} none .discarding).fits.2, _, rfl, mem_cons_of_mem _ mem_cons_self⟩

end PhpFlow
